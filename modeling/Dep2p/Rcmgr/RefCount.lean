import Mathlib.Data.Set.Card
import Dep2p.Rcmgr.Refs

/- Reference counts are exact, except where a call moves references it does not hold.

   What is proved:
     1. `Balanced.step`: one call keeps every reference count equal to the number
        of references held, when the calls that move a scope are made on open
        scopes only. A connection that lost its edges in a refused transfer is
        the one exception: `SetPeer` on it drops references on the system and
        transient scopes that it does not hold.
     2. `refCnt_exact`: the same over whole runs, as a count of the open scopes,
        spans and views.
     3. `setPeer_after_done`: a run that closes a connection and then sets its
        peer leaves the count of the transient scope below the references held. -/
namespace Dep2p.Rcmgr

open Lib List Prod

variable {id x a b : ScopeId} {err : Option RcErr} {nm : ScopeName} {n : Nat} {c : ConnectionScope}

variable (limits : Limiter) (cl : ConnLimiter) (al : Allowlist) (stickyProto : ProtocolID → Bool)
  (stickyPeer : PeerID → Bool)

namespace Manager

/-! ## Calls that change counters only -/

/-- Nothing but resource counters differs. -/
structure Quiet (σ τ : Manager) : Prop where
  skel : τ.skel = σ.skel
  marks : τ.marks = σ.marks
  views : τ.views = σ.views
  refCnt : ∀ x, (τ.scopes x).refCnt = (σ.scopes x).refCnt

variable {st : ScopeStat}

section quiet

variable {σ τ : Manager}

theorem Quiet.gap (h : σ.Quiet τ) (S : ScopeId) : τ.gap S = σ.gap S :=
  gap_of_counters h.skel h.marks h.views h.refCnt S

theorem Quiet.next (h : σ.Quiet τ) : τ.next = σ.next := congrArg Skeleton.next h.skel

theorem Quiet.done (h : σ.Quiet τ) (x : ScopeId) : (τ.scopes x).done = (σ.scopes x).done :=
  congrArg fst (congrFun h.marks x)

theorem Quiet.edges (h : σ.Quiet τ) (n : Nat) :
    (τ.scopes (.node n)).edges = (σ.scopes (.node n)).edges :=
  congrFun (congrArg Skeleton.edges h.skel) n

theorem quiet_acquire {r : Reservation} (h : σ.acquire r id = (τ, err)) : σ.Quiet τ := by
  obtain rfl : (σ.acquire r id).1 = τ := congrArg fst h
  exact ⟨skel_acquire σ r id, marks_acquire σ r, rfl,
    fun _ => Graph.acquire_keep uncounted_refCnt r _ _⟩

theorem quiet_reserveForChild
    (h : σ.reserveForChild id st = (τ, err)) : σ.Quiet τ := by
  obtain rfl : (σ.reserveForChild id st).1 = τ := congrArg fst h
  exact ⟨skel_reserveForChild σ id st, marks_reserveForChild σ, rfl,
    fun _ => Graph.modify_keep (Graph.reserveForChild_keep uncounted_refCnt) _ _⟩

theorem quiet_releaseMemory (size : Int64) :
    σ.Quiet { σ with scopes := σ.scopes.releaseMemory id size } :=
  ⟨skel_releaseMemory σ size,
    marks_scopes σ (fun _ => Graph.release_keep uncounted_done _ _ _)
      fun _ => Graph.release_keep uncounted_spanID _ _ _, rfl,
    fun _ => Graph.release_keep uncounted_refCnt _ _ _⟩

end quiet

/-! ## Creating a scope -/

/-- Either nothing happened, or a scope was created and the tables changed. -/
inductive Looked (σ τ : Manager) : Prop where
  | found : τ.scopes = σ.scopes → τ.next = σ.next → τ.views = σ.views → Looked σ τ
  | created {limit : Limit} {edges : List ScopeId} {name : ScopeName} : σ.fresh ∉ edges →
      τ.scopes = (σ.newResourceScope limit edges name).scopes → τ.next = σ.next + 1 →
      τ.views = σ.views → Looked σ τ

section looked

variable {σ τ : Manager}

/-- The other scopes keep all but their references. -/
theorem Looked.keep (h : σ.Looked τ) {B : Type} {π : ResourceScope → B}
    (hπ : ∀ s, π s.incRef = π s) (hx : x ≠ σ.fresh) :
    π (τ.scopes x) = π (σ.scopes x) := by
  cases h with
  | found hscopes => rw [hscopes]
  | created _ hscopes => rw [hscopes, newResourceScope_keep σ hπ _ _ hx]

/-- The permanent scopes are older than any scope a call creates. -/
theorem fresh_ne (hid : σ.skel.Named id nm) :
    σ.fresh ≠ id := by
  obtain ⟨n, rfl, hlt, -⟩ := hid
  intro heq
  injection heq with heq
  exact absurd hlt (by rw [← heq]; exact lt_irrefl _)

theorem looked_lookupSector (h : σ.skel.Shape) (t : Sector) : σ.Looked (σ.lookupSector t).1 := by
  cases t <;> simp only [lookupSector, lookupProtocol, lookupService] <;> split
  all_goals first
    | exact .found rfl rfl rfl
    | exact .created (by simpa using fresh_ne h.system) rfl rfl rfl

theorem looked_lookupPeer (h : σ.skel.Shape) (p : PeerID) : σ.Looked (σ.lookupPeer p).1 := by
  simp only [lookupPeer]
  split
  · exact .found rfl rfl rfl
  · exact .created (by simpa using fresh_ne h.system) rfl rfl rfl

theorem looked_lookupSubPeer (owner : ScopeId) (limit : Limit) (name : ScopeName) (p : PeerID) :
    σ.Looked (σ.lookupSubPeer owner limit name p).1 := by
  simp only [lookupSubPeer]
  split
  · exact .found rfl rfl rfl
  · exact .created not_mem_nil rfl rfl rfl

theorem looked_newConn (h : σ.skel.Shape) : σ.Looked (σ.newConn c) := by
  refine .created ?_ rfl rfl rfl
  unfold ConnectionScope.firstEdges
  split
  · simpa using ⟨fresh_ne h.allowlistedTransient, fresh_ne h.allowlistedSystem⟩
  · simpa using ⟨fresh_ne h.transient, fresh_ne h.system⟩

theorem looked_newStreamScope (h : σ.skel.Shape) (dir : Direction) {peer : PeerScope}
    (hp : σ.skel.Named peer.scope (.peer peer.peer)) : σ.Looked (σ.newStreamScope dir peer) :=
  .created (by simpa using ⟨fresh_ne hp, fresh_ne h.transient, fresh_ne h.system⟩) rfl rfl rfl

section

variable (h : σ.Looked τ)
include h

theorem Looked.next_le : σ.next ≤ τ.next := by
  cases h with
  | found _ hnext => exact hnext.ge
  | created _ _ hnext => omega

theorem Looked.next_succ : τ.next ≤ σ.next + 1 := by
  cases h with
  | found _ hnext => omega
  | created _ _ hnext => exact hnext.le

/-- Scopes that existed are marked as they were. -/
theorem Looked.marks (hx : x ≠ σ.fresh) : τ.marks x = σ.marks x := by
  cases h with
  | found hscopes => simp only [Manager.marks, hscopes]
  | @created limit edges name _ hscopes =>
    have hmarks := congrFun (marks_newResourceScope σ limit edges name) x
    rw [Function.update_of_ne hx] at hmarks
    rw [← hmarks]
    simp [Manager.marks, hscopes]

theorem Looked.births (hb : σ.Births) : τ.Births := by
  cases h with
  | found hscopes hnext => exact hb.congr hnext (by funext x; simp only [Manager.marks, hscopes])
  | @created limit edges name _ hscopes hnext =>
    exact (hb.newResourceScope limit edges name).congr hnext
      (by funext x; simp only [Manager.marks, hscopes])

/-- Creating a scope leaves every gap as it was, and the new scope has none. -/
theorem Looked.gap (hshape : σ.skel.Shape) (hviews : ∀ v ∈ σ.views, σ.skel.Created v) (S : ScopeId)
    (hS : τ.skel.Created S) : τ.gap S = if S = σ.fresh then 0 else σ.gap S := by
  have hnot : σ.fresh ∉ σ.views := by
    intro hmem
    obtain ⟨n, hid, hlt⟩ := hviews _ hmem
    injection hid with hid
    exact absurd hlt (by rw [← hid]; exact lt_irrefl _)
  cases h with
  | found hscopes hnext hv =>
    have hne : S ≠ σ.fresh := by
      rintro rfl
      obtain ⟨n, hid, hlt⟩ := hS
      injection hid with hid
      have hlt : n < τ.next := hlt
      omega
    rw [if_neg hne]
    exact gap_of_parts hscopes hnext hv S
  | @created limit edges name hedges hscopes hnext hv =>
    rw [gap_of_parts hscopes hnext hv]
    split
    · rename_i hfresh
      rw [hfresh]; exact gap_newResourceScope_fresh σ hshape hnot limit hedges name
    · rename_i hne
      exact gap_newResourceScope_of_ne σ hne limit name

end

end looked

/-! ## Drift

A call first takes references for scopes it looks up and then hands them to the
edges it installs. `d` is what the counts are ahead of the references held at a
point inside the call; `B` says for which scopes this is known. -/

/-- What every reachable state satisfies, whatever the calls. -/
structure Sound (σ : Manager) : Prop where
  shape : σ.skel.Shape
  births : σ.Births
  views : ∀ v ∈ σ.views, σ.skel.Created v

def Drift (B : ScopeId → Prop) (σ : Manager) (d : ScopeId → Int) : Prop :=
  ∀ S, σ.skel.Created S → B S → σ.gap S = d S

/-- One reference on `id`. -/
def one (id : ScopeId) : ScopeId → Int := fun S => if S = id then 1 else 0

theorem count_cons (id : ScopeId) (ids : List ScopeId) (S : ScopeId) :
    (((id :: ids).count S : Nat) : Int) = one id S + (ids.count S : Nat) := by
  simp only [one, List.count_cons, beq_iff_eq, eq_comm (a := S)]
  split <;> omega

section drift

variable {B : ScopeId → Prop} {σ τ : Manager} {d : ScopeId → Int}

theorem Quiet.sound (h : σ.Quiet τ) (hs : σ.Sound) : τ.Sound where
  shape := h.skel ▸ hs.shape
  births := hs.births.congr h.next h.marks
  views v hv := h.skel ▸ hs.views v (h.views ▸ hv)

theorem Quiet.drift (h : σ.Quiet τ) (hd : Drift B σ d) : Drift B τ d := by
  intro S hS hB
  rw [h.gap]
  exact hd S (h.skel ▸ hS) hB

theorem Drift.incRef (h : Drift B σ d) (id : ScopeId) :
    Drift B (σ.incRef id) fun S => d S + one id S := by
  intro S hS hB
  rw [gap_incRef, h S (skel_incRef σ ▸ hS) hB]
  rfl

theorem Drift.decRef (h : Drift B σ d) :
    Drift B (σ.decRef id) fun S => d S - one id S := by
  intro S hS hB
  rw [gap_decRef, h S (skel_decRef σ id ▸ hS) hB]
  rfl

theorem Drift.congr {d' : ScopeId → Int} (h : Drift B σ d) (hd : ∀ S, d S = d' S) : Drift B σ d' :=
  fun S hS hB => (h S hS hB).trans (hd S)

/-- A call that looked something up. -/
theorem Looked.drift (h : σ.Looked τ) (hs : σ.Sound) (hd : Drift B σ d) (hfresh : d σ.fresh = 0) :
    Drift B τ d := by
  intro S hS hB
  rw [h.gap hs.shape hs.views S hS]
  split
  · rename_i heq; rw [heq, hfresh]
  · rename_i hne
    refine hd S ?_ hB
    obtain ⟨n, rfl, hlt⟩ := hS
    refine ⟨n, rfl, ?_⟩
    have hlt : n < τ.next := hlt
    have hne : n ≠ σ.next := fun heq => hne (by rw [heq]; rfl)
    have hle : τ.next ≤ σ.next + 1 := h.next_succ
    show n < σ.next
    omega

theorem Looked.views (h : σ.Looked τ) : τ.views = σ.views := by
  cases h with
  | found _ _ hv | created _ _ _ hv => exact hv

theorem Looked.sound (h : σ.Looked τ) (hs : σ.Sound) (hshape : τ.skel.Shape) : τ.Sound where
  shape := hshape
  births := h.births hs.births
  views v hv := by
    obtain ⟨n, rfl, hlt⟩ := hs.views v (h.views ▸ hv)
    exact ⟨n, rfl, lt_of_lt_of_le hlt h.next_le⟩

/-- The scope `x` was looked up and a reference on it was taken. -/
structure Got (B : ScopeId → Prop) (σ τ : Manager) (d : ScopeId → Int) (x : ScopeId)
    (nm : ScopeName) : Prop where
  found : σ.Found τ x nm
  sound : τ.Sound
  drift : Drift B τ fun S => d S + one x S
  done : ∀ n, n < σ.next → (τ.scopes (.node n)).done = (σ.scopes (.node n)).done

section

variable (hs : σ.Sound) (hd : Drift B σ d) (hfresh : d σ.fresh = 0)
include hs hd hfresh

theorem got_of_looked (hfound : σ.Found τ x nm) (hlook : σ.Looked τ) :
    Got B σ (τ.incRef x) d x nm where
  found := hfound.of_skel (skel_incRef τ)
  sound := by
    have hsound := hlook.sound hs hfound.shape
    exact ⟨skel_incRef τ ▸ hsound.shape, hsound.births.congr rfl (marks_incRef τ),
      fun v hv => skel_incRef τ ▸ hsound.views v hv⟩
  drift := (hlook.drift hs hd hfresh).incRef x
  done n hn := by
    have hne : .node n ≠ σ.fresh := fun heq => by injection heq with heq; omega
    exact congrArg fst ((congrFun (marks_incRef τ) _).trans (hlook.marks hne))

theorem got_lookupSector (t : Sector) :
    Got B σ ((σ.lookupSector t).1.incRef (σ.lookupSector t).2) d (σ.lookupSector t).2 t.name :=
  got_of_looked hs hd hfresh (found_lookupSector hs.shape t) (looked_lookupSector hs.shape t)

theorem got_getPeerScope (p : PeerID) :
    Got B σ (σ.getPeerScope p).1 d (σ.getPeerScope p).2.scope (.peer p) :=
  got_of_looked hs hd hfresh (found_lookupPeer hs.shape).1 (looked_lookupPeer hs.shape p)

end

/-- Nothing is held on a scope that does not exist yet. -/
theorem one_fresh (hx : σ.skel.Named x nm) : one x σ.fresh = 0 :=
  if_neg (fresh_ne hx)

end drift

/-! ## Whole calls -/

/-- Between calls the counts are ahead of nothing. -/
structure Balanced (B : ScopeId → Prop) (σ : Manager) : Prop extends Sound σ where
  drift : Drift B σ fun _ => 0

section calls

variable {B : ScopeId → Prop} {σ τ : Manager} {S : ScopeId} {edges : List ScopeId} {σ₀ : Manager}

theorem Balanced.gap_zero (h : σ.Balanced B) (hS : σ.skel.Created S) (hB : B S) :
    σ.gap S = 0 :=
  h.drift S hS hB

theorem Balanced.quiet (h : σ.Balanced B) (hq : σ.Quiet τ) : τ.Balanced B :=
  ⟨hq.sound h.toSound, hq.drift h.drift⟩

theorem Balanced.looked (h : σ.Balanced B) (hl : σ.Looked τ) (hshape : τ.skel.Shape) :
    τ.Balanced B :=
  ⟨hl.sound h.toSound hshape, hl.drift h.toSound h.drift rfl⟩

theorem Balanced.setConnLimiter (h : σ.Balanced B) (cl : ConnLimiter) :
    (σ.setConnLimiter cl).Balanced B :=
  ⟨⟨h.shape, h.births, h.views⟩, h.drift⟩

theorem Sound.doneUnlocked (h : σ.Sound) : (σ.doneUnlocked id).Sound :=
  ⟨skel_doneUnlocked σ ▸ h.shape, h.births.doneUnlocked id,
    fun v hv => skel_doneUnlocked σ ▸ h.views v hv⟩

theorem Balanced.doneUnlocked (h : σ.Balanced B) :
    (σ.doneUnlocked id).Balanced B := by
  refine ⟨h.toSound.doneUnlocked, fun S hS hB => ?_⟩
  rw [gap_doneUnlocked h.births]
  exact h.drift S (skel_doneUnlocked σ ▸ hS) hB

theorem Balanced.done (h : σ.Balanced B) (id : ScopeId) : (σ.done id).Balanced B := by
  simp only [Manager.done, connDone]
  split
  · split
    · exact h
    · split
      · exact h.doneUnlocked
      · exact (h.setConnLimiter _).doneUnlocked
  · exact h.doneUnlocked

theorem quiet_attempt : (σ.newConn c).Quiet (σ.attempt c) :=
  quiet_acquire (Prod.ext rfl rfl)

theorem Balanced.attempt (h : σ.Balanced B) (hc : c.peer = none) :
    (σ.attempt c).Balanced B :=
  (h.looked (looked_newConn h.shape) (shape_newConn h.shape hc)).quiet quiet_attempt

theorem Balanced.openConnection (h : σ.Balanced B) (dir : Direction) (usefd : Bool)
    (endpoint : Endpoint) (ip : Option Addr) :
    (σ.openConnection dir usefd endpoint ip).1.Balanced B :=
  openConnection_induction (fun _ _ h => h.setConnLimiter _) (fun _ _ hc h => h.attempt hc)
    (fun _ _ hc h => (h.attempt hc).done _) h dir usefd endpoint ip

/-- Giving up a reference that was taken inside the call. -/
theorem Balanced.of_decRef (hs : σ.Sound) (hd : Drift B σ (one x)) :
    (σ.decRef x).Balanced B where
  shape := skel_decRef σ x ▸ hs.shape
  births := hs.births.congr rfl (marks_decRef σ)
  views v hv := skel_decRef σ x ▸ hs.views v hv
  drift := hd.decRef.congr fun _ => sub_self _

theorem Balanced.openStream (h : σ.Balanced B) (p : PeerID) (dir : Direction) :
    (σ.openStream p dir).1.Balanced B := by
  have hgot := got_getPeerScope h.toSound h.drift rfl p
  have hn : (σ.getPeerScope p).1.skel.Named (σ.getPeerScope p).2.scope
      (.peer (σ.getPeerScope p).2.peer) := by
    rw [(found_getPeerScope h.shape p).2]; exact hgot.found.named
  have hlook := looked_newStreamScope hgot.sound.shape dir hn
  have hsound := hlook.sound hgot.sound (shape_newStreamScope hgot.sound.shape dir hn)
  have hdrift := hlook.drift hgot.sound (hgot.drift.congr fun S => zero_add _) (one_fresh hn)
  have hnew := of_decRef hsound hdrift
  simp only [Manager.openStream]
  split
  · rename_i σ₁ heq
    exact hnew.quiet (quiet_acquire heq)
  · rename_i σ₁ err heq
    exact (hnew.quiet (quiet_acquire heq)).done _

/-- An open scope gives back what it has at `t` and moves to other edges. -/
theorem gap_swap (t : ScopeId) (hn : n < σ.next)
    (hlive : (σ.scopes (.node n)).done = false) :
    (((σ.releaseForChild t st).decRef t).setEdges (.node n) edges).gap S =
      σ.gap S - one t S + (σ.scopes (.node n)).edges.count S - edges.count S := by
  have hmarks : ((σ.releaseForChild t st).decRef t).marks = σ.marks := by simp
  have hskel : ((σ.releaseForChild t st).decRef t).skel = σ.skel := by simp
  have hlive' : (((σ.releaseForChild t st).decRef t).scopes (.node n)).done = false :=
    (congrArg fst (congrFun hmarks _)).trans hlive
  have hedges : (((σ.releaseForChild t st).decRef t).scopes (.node n)).edges =
      (σ.scopes (.node n)).edges := congrFun (congrArg Skeleton.edges hskel) n
  rw [gap_setEdges ((σ.releaseForChild t st).decRef t) S hn hlive', hedges, gap_decRef, gap_releaseForChild]
  rfl

/-- The end of a migration: the tables and the edges are as they should be, and
the references taken on the way are those of the new edges. -/
theorem Balanced.of_moved (hs : σ.Sound) (hshape : τ.skel.Shape) (hnext : τ.next = σ.next)
    (hmarks : τ.marks = σ.marks) (hviews : τ.views = σ.views)
    (hd : ∀ S, σ.skel.Created S → B S → τ.gap S = 0) : τ.Balanced B where
  shape := hshape
  births := hs.births.congr hnext hmarks
  views v hv := by
    obtain ⟨n, rfl, hlt⟩ := hs.views v (hviews ▸ hv)
    exact ⟨n, rfl, lt_of_lt_of_eq hlt hnext.symm⟩
  drift S hS hB := by
    obtain ⟨n, rfl, hlt⟩ := hS
    exact hd _ ⟨n, rfl, lt_of_lt_of_eq hlt hnext⟩ hB

theorem Balanced.joinPeer (h : σ.Balanced B) {c₀ : ConnectionScope}
    (hc : σ.conns id = some c₀) (hlive : (σ.scopes id).done = false) (p : PeerID)
    {system transient : ScopeId}
    (hsys : system = if c.isAllowlisted then allowlistedSystem else Rcmgr.system)
    (hE : ∀ S, B S → (σ.scopes id).edges.count S = [transient, system].count S) :
    (σ.joinPeer id c p system transient).1.Balanced B := by
  have hshape : (σ.joinPeer id c p system transient).1.skel.Shape :=
    shape_joinPeer h.shape hc hsys
  obtain ⟨n, k, rfl, hn, -⟩ := h.shape.conn hc
  have hgot := got_getPeerScope h.toSound h.drift rfl p
  simp only [joinPeer] at hshape ⊢
  split
  · rename_i σ₁ err heq
    have hq := quiet_reserveForChild heq
    exact .of_decRef (hq.sound hgot.sound) (hq.drift (hgot.drift.congr fun _ => zero_add _))
  · rename_i σ₁ heq
    simp only [heq] at hshape
    have hq := quiet_reserveForChild heq
    have hn₁ : n < σ₁.next := by
      rw [hq.next]; exact lt_of_lt_of_le hn hgot.found.ext.next
    have hlive₁ : (σ₁.scopes (.node n)).done = false := by
      rw [hq.done, hgot.done n hn, hlive]
    have hedges₁ : (σ₁.scopes (.node n)).edges = (σ.scopes (.node n)).edges :=
      (hq.edges n).trans (hgot.found.edges n hn)
    refine .of_moved (hq.sound hgot.sound) hshape rfl (by simp) rfl fun S hS hB => ?_
    have hgap : σ₁.gap S = one (σ.getPeerScope p).2.scope S :=
      (hq.drift hgot.drift S hS hB).trans (zero_add _)
    have hcount := hE S hB
    rw [gap_setConn, gap_swap transient hn₁ hlive₁, hedges₁, hcount]
    simp only [count_cons]
    omega

/-- Leaving all edges drops the references they stood for. -/
theorem gap_leaveEdges (σ : Manager) (hn : n < σ.next)
    (hlive : (σ.scopes (.node n)).done = false) (S : ScopeId) :
    (σ.leaveEdges (.node n)).gap S = σ.gap S := by
  set τ := σ.releaseEdges (σ.scopes (.node n)).edges (σ.stat (.node n)) with hτ
  have hlive' : (τ.scopes (.node n)).done = false :=
    (congrArg fst (congrFun (marks_releaseEdges σ) _)).trans hlive
  have hedges : (τ.scopes (.node n)).edges = (σ.scopes (.node n)).edges :=
    congrFun (congrArg Skeleton.edges (skel_releaseEdges σ)) n
  have hleave : σ.leaveEdges (.node n) = τ.setEdges (.node n) [] := rfl
  rw [hleave, gap_setEdges τ S hn hlive', hedges, gap_releaseEdges]
  simp

@[simp] theorem marks_leaveEdges (σ : Manager) (id : ScopeId) : (σ.leaveEdges id).marks = σ.marks := by
  simp [leaveEdges]

theorem leaveEdges_edges (σ : Manager) (id : ScopeId) : ((σ.leaveEdges id).scopes id).edges = [] := by
  simp [leaveEdges, setEdges, modify]

/-- A transfer from the allowlist, refused or not, keeps the counts exact. A
refused one leaves the connection without edges. -/
theorem Balanced.transfer (h : σ.Balanced B)
    (hc : σ.conns id = some c) (hpeer : c.peer = none) (hlive : (σ.scopes id).done = false)
    (heq : (σ.setConn id { c with isAllowlisted := false }).transferAllowedToStandard id = (τ, err)) :
    τ.Balanced B ∧ (τ.scopes id).done = false ∧
      (err = none → (τ.scopes id).edges = [system, transient]) := by
  have hshape := (shape_transfer h.shape hc hpeer).1
  obtain ⟨n, k, rfl, hn, -⟩ := h.shape.conn hc
  set σ₀ := σ.setConn (.node n) { c with isAllowlisted := false } with hσ₀
  have hn₀ : n < σ₀.next := hn
  have hleft : ∀ S, (σ₀.leaveEdges (.node n)).gap S = σ.gap S := gap_leaveEdges σ₀ hn₀ hlive
  have hmarks₀ : (σ₀.leaveEdges (.node n)).marks = σ.marks := marks_leaveEdges σ₀ _
  rw [heq] at hshape
  simp only [transferAllowedToStandard] at heq
  split at heq
  · rename_i σ₁ e heq₁
    have hq := quiet_reserveForChild heq₁
    obtain ⟨rfl, rfl⟩ := Prod.mk.inj heq
    have hmarks : σ₁.marks = σ.marks := hq.marks.trans hmarks₀
    refine ⟨.of_moved h.toSound hshape hq.next hmarks hq.views fun S hS hB => ?_,
      (congrArg fst (congrFun hmarks _)).trans hlive, by simp⟩
    rw [hq.gap, hleft, h.gap_zero hS hB]
  · rename_i σ₁ heq₁
    have hq := quiet_reserveForChild heq₁
    split at heq
    · rename_i σ₂ e heq₂
      have hq' := quiet_reserveForChild heq₂
      obtain ⟨rfl, rfl⟩ := Prod.mk.inj heq
      have hmarks : ((σ₂.releaseForChild system (σ₀.stat (.node n))).decRef system).marks = σ.marks := by
        simp [marks_decRef, marks_releaseForChild, hq'.marks, marks_incRef, hq.marks, hmarks₀]
      refine ⟨.of_moved h.toSound hshape (hq'.next.trans hq.next) hmarks (hq'.views.trans hq.views)
        fun S hS hB => ?_, (congrArg fst (congrFun hmarks _)).trans hlive, by simp⟩
      rw [gap_decRef, gap_releaseForChild, hq'.gap, gap_incRef, hq.gap, hleft, h.gap_zero hS hB]
      omega
    · rename_i σ₂ heq₂
      have hq' := quiet_reserveForChild heq₂
      obtain ⟨rfl, rfl⟩ := Prod.mk.inj heq
      have hmarks : (σ₂.incRef transient).marks = σ.marks := by
        simp [marks_incRef, hq'.marks, hq.marks, hmarks₀]
      have hnext : (σ₂.incRef transient).next = σ.next := hq'.next.trans hq.next
      have hlive₂ : ((σ₂.incRef transient).scopes (.node n)).done = false :=
        (congrArg fst (congrFun hmarks _)).trans hlive
      have hedges : ((σ₂.incRef transient).scopes (.node n)).edges = [] := by
        have hskel : (σ₂.incRef transient).skel = (σ₀.leaveEdges (.node n)).skel := by
          simp [skel_incRef, hq'.skel, hq.skel]
        exact (congrFun (congrArg Skeleton.edges hskel) n).trans (leaveEdges_edges σ₀ _)
      refine ⟨.of_moved h.toSound hshape hnext ((marks_setEdges _).trans hmarks)
        (hq'.views.trans hq.views) fun S hS hB => ?_, ?_, fun _ => ?_⟩
      · rw [gap_setEdges (σ₂.incRef transient) S (hnext ▸ hn) hlive₂, hedges, gap_incRef, hq'.gap,
          gap_incRef, hq.gap, hleft, h.gap_zero hS hB]
        simp only [count_cons, one]
        omega
      · exact (congrArg fst (congrFun (marks_setEdges _) _)).trans hlive₂
      · simp [setEdges, modify]

theorem count_perm : [a, b].count S = [b, a].count S :=
  (Perm.swap b a []).count_eq S

/-- The edges of a connection without a peer. -/
theorem connEdges_count {κ : Skeleton}
    (h : κ.ConnEdges c edges) (hpeer : c.peer = none)
    (hleft : edges = [] → S ≠ system ∧ S ≠ transient) :
    edges.count S = (if c.isAllowlisted then [allowlistedTransient, allowlistedSystem]
      else [transient, system]).count S := by
  cases h with
  | opened _ ha | allowlisted _ ha => rw [ha]; rfl
  | left _ ha =>
    obtain ⟨hs, ht⟩ := hleft rfl
    rw [ha]
    simp [hs.symm, ht.symm]
  | transferred _ ha => rw [ha]; exact count_perm
  | peered hp => rw [hpeer] at hp; cases hp

theorem Balanced.setPeer (h : σ.Balanced B) (hlive : (σ.scopes id).done = false)
    (hleft : (σ.scopes id).edges = [] → ∀ S, B S → S ≠ system ∧ S ≠ transient) (p : PeerID) :
    (σ.setPeer id p).1.Balanced B := by
  refine setPeer_induction h (fun c sys tr hc hnone hsys htr => ?_) ?_
  · obtain ⟨n, k, rfl, -, -, -, hedges⟩ := h.shape.conn hc
    refine h.joinPeer hc hlive p hsys fun S hB => ?_
    rw [hsys, htr]
    refine (connEdges_count hedges hnone fun he => hleft he S hB).trans ?_
    split <;> rfl
  · intro c τ err hc hnone hal hallowed heq
    obtain ⟨hbal, hlive₁, hedges⟩ := h.transfer hc hnone hlive heq
    refine ⟨fun _ => hbal, fun hok => ?_⟩
    have hconn := (shape_transfer h.shape hc hnone).2
    rw [heq] at hconn
    refine hbal.joinPeer hconn hlive₁ p (by simp) fun S _ => ?_
    rw [hedges hok]; exact count_perm

/-- Two scopes were looked up and charged one after the other: the references on
them are held by the call, and the scopes there were are open and attached as before. -/
structure Staged (B : ScopeId → Prop) (σ τ : Manager) (a b : ScopeId) : Prop where
  sound : τ.Sound
  drift : Drift B τ fun S => one a S + one b S
  next : σ.next ≤ τ.next
  done : ∀ n, n < σ.next → (τ.scopes (.node n)).done = (σ.scopes (.node n)).done
  edges : ∀ n, n < σ.next → (τ.scopes (.node n)).edges = (σ.scopes (.node n)).edges

theorem staged {σ₁ σ₂ : Manager} {nm' : ScopeName}
    (hgot : Got B σ σ₀ (fun _ => 0) a nm) (hq : σ₀.Quiet σ₁) (hgot' : Got B σ₁ σ₂ (one a) b nm')
    (hq' : σ₂.Quiet τ) : Staged B σ τ a b := by
  have hle : σ.next ≤ σ₁.next := hgot.found.ext.next.trans_eq hq.next.symm
  refine ⟨hq'.sound hgot'.sound, hq'.drift hgot'.drift, ?_, fun n hn => ?_, fun n hn => ?_⟩
  · exact hle.trans (hgot'.found.ext.next.trans_eq hq'.next.symm)
  · rw [hq'.done, hgot'.done n (lt_of_lt_of_le hn hle), hq.done, hgot.done n hn]
  · rw [hq'.edges]
    refine (hgot'.found.edges n (lt_of_lt_of_le hn hle)).trans ?_
    exact (hq.edges n).trans (hgot.found.edges n hn)

/-- Giving up both references. -/
theorem Staged.undo (h : Staged B σ τ a b) :
    (((τ.releaseForChild a st).decRef a).decRef b).Balanced B := by
  refine .of_moved h.sound (by simpa using h.sound.shape) rfl (by simp) rfl fun S hS hB => ?_
  rw [gap_decRef, gap_decRef, gap_releaseForChild, h.drift S hS hB]
  simp only [one]
  omega

/-- A lookup followed by a reservation that was refused. -/
theorem Got.undo
    (h : Got B σ σ₀ (fun _ => 0) a nm) (hq : σ₀.Quiet τ) : (τ.decRef a).Balanced B :=
  .of_decRef (hq.sound h.sound) (hq.drift (h.drift.congr fun _ => zero_add _))

/-- A stream that enters a sector gives back what it leaves and moves to other edges. -/
theorem gap_leaves (t : Sector) (hn : n < σ.next)
    (hlive : (σ.scopes (.node n)).done = false) :
    ((t.leaves.foldl (fun σ x => (σ.releaseForChild x st).decRef x) σ).setEdges (.node n) edges).gap S =
      σ.gap S + (σ.scopes (.node n)).edges.count S - (t.leaves ++ edges).count S := by
  cases t with
  | protocol proto =>
    rw [Sector.leaves, singleton_append, count_cons]
    refine (gap_swap transient hn hlive).trans ?_
    omega
  | service svc => exact gap_setEdges σ S hn hlive

theorem Balanced.setSector (h : σ.Balanced B) (hlive : (σ.scopes id).done = false)
    (t : Sector) : (σ.setSector id t).1.Balanced B := by
  have hshape := shape_setSector h.shape id t
  obtain ⟨err, heq⟩ | ⟨n, s, rfl, he, heq⟩ := setSector_cases h.shape id t <;> rw [heq] at hshape ⊢
  · exact h
  have hgot := got_lookupSector h.toSound h.drift rfl t
  simp only [enroll] at hshape ⊢
  split
  · rename_i σ₁ err heq
    exact hgot.undo (quiet_reserveForChild heq)
  · rename_i σ₁ heq
    have hq := quiet_reserveForChild heq
    obtain ⟨hfound, hfound'⟩ := found_second h.shape heq s.peer.peer
    have hgot' := got_of_looked (hq.sound hgot.sound)
      (hq.drift (hgot.drift.congr fun _ => zero_add _)) (one_fresh hfound.named) hfound'
      (looked_lookupSubPeer _ _ _ _)
    split
    · rename_i σ₂ err heq'
      exact (staged hgot hq hgot' (quiet_reserveForChild heq')).undo
    · rename_i σ₂ heq'
      have hst := staged hgot hq hgot' (quiet_reserveForChild heq')
      simp only [heq, heq'] at hshape
      refine .of_moved hst.sound hshape (by cases t <;> rfl) (by cases t <;> simp [Sector.leaves])
        (by cases t <;> rfl) fun S hS hB => ?_
      rw [gap_setStream, gap_leaves t (lt_of_lt_of_le he.lt hst.next)
        ((hst.done n he.lt).trans hlive), hst.edges n he.lt, hst.drift S hS hB,
        (he.perm _ _).count_eq S, count_cons, count_cons]
      dsimp only
      omega

/-! ### Collecting, spans and views -/

/-- Only the tables changed. -/
theorem Balanced.enter (h : σ.Balanced B) (hshape : τ.skel.Shape) (hscopes : τ.scopes = σ.scopes)
    (hnext : τ.next = σ.next) (hviews : τ.views = σ.views) : τ.Balanced B :=
  .of_moved h.toSound hshape hnext (by funext x; simp only [marks, hscopes]) hviews
    fun S hS hB => (gap_of_parts hscopes hnext hviews S).trans (h.gap_zero hS hB)

theorem Balanced.vacate (h : σ.Balanced B) (slot : Slot) :
    ((σ.doneUnlocked S).vacate slot).Balanced B := by
  have hshape := shape_vacate h.shape S slot
  cases slot <;> exact h.doneUnlocked.enter hshape rfl rfl rfl

theorem Balanced.beginSpan (h : σ.Balanced B) :
    { σ with scopes := (σ.scopes.beginSpan id).1 }.Balanced B := by
  have hskel := skel_beginSpan σ id
  refine ⟨⟨hskel ▸ h.shape, h.births.beginSpan, fun v hv => hskel ▸ h.views v hv⟩,
    fun S hS hB => ?_⟩
  have hne : S ≠ .span id ((σ.scopes id).spanID + 1) := by
    rintro rfl
    obtain ⟨n, hn, -⟩ := hS
    cases hn
  rw [gap_beginSpan hne, h.gap_zero (hskel ▸ hS) hB]

theorem gap_setViews (vs : List ScopeId) :
    { σ with views := vs }.gap S = σ.gap S + σ.views.count S - vs.count S := by
  have hrefs : { σ with views := vs }.edgeRefs S = σ.edgeRefs S := rfl
  have hspans : { σ with views := vs }.spanRefs S = σ.spanRefs S := rfl
  simp only [gap, due, hrefs, hspans]
  omega

/-- A view holds the reference its lookup took. -/
theorem Got.view
    (h : Got B σ τ (fun _ => 0) x nm) : { τ with views := x :: τ.views }.Balanced B := by
  refine ⟨⟨h.sound.shape, h.sound.births, fun v hv => ?_⟩, fun S hS hB => ?_⟩
  · rcases mem_cons.mp hv with rfl | hv
    · obtain ⟨n, rfl, hlt, -⟩ := h.found.named
      exact ⟨n, rfl, hlt⟩
    · exact h.sound.views v hv
  · rw [gap_setViews, h.drift S hS hB, count_cons]
    simp only
    omega

theorem Balanced.viewBegin (h : σ.Balanced B) (target : ViewTarget) :
    (σ.viewBegin target).Balanced B := by
  cases target with
  | service svc => exact (got_lookupSector h.toSound h.drift rfl (.service svc)).view
  | protocol proto => exact (got_lookupSector h.toSound h.drift rfl (.protocol proto)).view
  | peer p => exact (got_getPeerScope h.toSound h.drift rfl p).view

theorem Balanced.viewEnd (h : σ.Balanced B) : (σ.viewEnd id).Balanced B := by
  simp only [Manager.viewEnd]
  split
  · rename_i hmem
    have hskel := skel_decRef σ id
    refine ⟨⟨hskel ▸ h.shape, h.births.congr rfl (marks_decRef σ),
      fun v hv => hskel ▸ h.views v (mem_of_mem_erase hv)⟩, fun S hS hB => ?_⟩
    have hcount := count_cons id (σ.views.erase id) S
    rw [← (perm_cons_erase hmem).count_eq S] at hcount
    have hviews : (σ.decRef id).views = σ.views := rfl
    rw [gap_setViews, hviews, hcount, gap_decRef, h.gap_zero (hskel ▸ hS) hB]
    simp only [one]
    omega
  · exact h

/-! ## Runs -/

/-- A call that moves a scope is made on an open one. -/
def SetsOpen (σ : Manager) : Op → Prop
  | .setPeer id _ | .setProtocol id _ | .setService id _ => (σ.scopes id).done = false
  | _ => True

/-- `SetPeer` is not called on a connection that lost its edges in a transfer. -/
def SetsAttached (σ : Manager) : Op → Prop
  | .setPeer id _ => (σ.scopes id).edges ≠ []
  | _ => True

instance (σ : Manager) : (op : Op) → Decidable (σ.SetsOpen op)
  | .setPeer id _ | .setProtocol id _ | .setService id _ =>
    inferInstanceAs (Decidable ((σ.scopes id).done = false))
  | .openConnection .. | .openConnectionNoIP .. | .openStream .. | .beginSpan _ | .reserveMemory ..
  | .releaseMemory .. | .done _ | .viewBegin _ | .viewEnd _ | .gc _ => isTrue trivial

instance (σ : Manager) : (op : Op) → Decidable (σ.SetsAttached op)
  | .setPeer id _ => inferInstanceAs (Decidable ((σ.scopes id).edges ≠ []))
  | .openConnection .. | .openConnectionNoIP .. | .openStream .. | .setProtocol .. | .setService ..
  | .beginSpan _ | .reserveMemory .. | .releaseMemory .. | .done _ | .viewBegin _ | .viewEnd _
  | .gc _ => isTrue trivial

/-- One call, on open scopes, keeps the counts exact, except that `SetPeer` on a
connection without edges may disturb those of the system and transient scopes. -/
theorem Balanced.step (h : σ.Balanced B) {op : Op} (hopen : σ.SetsOpen op)
    (hleft : σ.SetsAttached op ∨ ∀ S, B S → S ≠ system ∧ S ≠ transient) :
    (σ.step op).Balanced B := by
  cases op with
  | openConnection dir usefd endpoint => exact h.openConnection dir usefd endpoint _
  | openConnectionNoIP dir usefd endpoint => exact h.openConnection dir usefd endpoint none
  | openStream p dir => exact h.openStream p dir
  | setPeer id p => exact h.setPeer hopen (fun he => hleft.resolve_left fun hne => hne he) p
  | setProtocol id proto => exact h.setSector hopen (.protocol proto)
  | setService id svc => exact h.setSector hopen (.service svc)
  | beginSpan id =>
    simp only [Manager.step, exec]
    split
    · exact h.beginSpan
    · exact h
  | reserveMemory id size prio => exact h.quiet (quiet_acquire (mk.eta).symm)
  | releaseMemory id size => exact h.quiet (quiet_releaseMemory size)
  | done id =>
    simp only [Manager.step, exec]
    split
    · exact h.done id
    · exact h
  | viewBegin target => exact h.viewBegin target
  | viewEnd id => exact h.viewEnd
  | gc order =>
    exact gc_induction (fun _ slot S hτ _ _ => hτ.vacate slot) h order

theorem births_newResourceManager :
    (newResourceManager limits cl al stickyProto stickyPeer).Births := by
  have hinc : ∀ {σ : Manager} (id : ScopeId), σ.Births → (σ.incRef id).Births :=
    fun id h => h.congr rfl (marks_incRef _)
  have hblank : (blank limits cl al stickyProto stickyPeer).Births := fun _ _ => rfl
  exact hinc _ ((hinc _ ((hinc _ ((hinc _ (hblank.newResourceScope _ _ _)).newResourceScope
    _ _ _)).newResourceScope _ _ _)).newResourceScope _ _ _)

theorem balanced_newResourceManager :
    (newResourceManager limits cl al stickyProto stickyPeer).Balanced B where
  shape := shape_newResourceManager limits cl al stickyProto stickyPeer
  births := births_newResourceManager limits cl al stickyProto stickyPeer
  views _ hv := absurd hv not_mem_nil
  drift S hS _ := by
    obtain ⟨n, rfl, hlt⟩ := hS
    have hlt : n < 4 := hlt
    have hcases : n = 0 ∨ n = 1 ∨ n = 2 ∨ n = 3 := by omega
    rcases hcases with rfl | rfl | rfl | rfl <;> rfl

end calls

/-- The open scopes attached to `S`. Spans have an owner and no edges. -/
def holders (σ : Manager) (S : ScopeId) : Set Nat :=
  { n | (σ.scopes (.node n)).done = false ∧ S ∈ (σ.scopes (.node n)).edges }

/-- The open spans of `S`. -/
def openSpans (σ : Manager) (S : ScopeId) : Set Nat := { k | (σ.scopes (.span S k)).done = false }

section count

variable {σ : Manager}

theorem total_edgeRefs (h : σ.Sound) (S : ScopeId) :
    Ledger.total σ.next (σ.edgeRefs S) = (σ.holders S).ncard := by
  have hset : σ.holders S = ((Finset.range σ.next).filter fun n =>
      (σ.scopes (.node n)).done = false ∧ S ∈ (σ.scopes (.node n)).edges : Finset Nat) := by
    ext n
    simp only [Finset.coe_filter, Finset.mem_range]
    exact ⟨fun hn => ⟨h.births.born_of_live hn.1, hn⟩, fun hn => hn.2⟩
  rw [hset, Set.ncard_coe_finset, ← Ledger.total_ite]
  refine Ledger.total_congr fun n hn => ?_
  have hnodup : ((σ.scopes (.node n)).edges).Nodup := h.shape.edges_nodup hn
  simp only [edgeRefs, hnodup.count]
  cases (σ.scopes (.node n)).done <;> simp

theorem total_spanRefs (h : σ.Sound) (S : ScopeId) :
    Ledger.total (σ.scopes S).spanID (σ.spanRefs S) = (σ.openSpans S).ncard := by
  have hset : σ.openSpans S = (((Finset.range (σ.scopes S).spanID).filter fun k =>
      (σ.scopes (.span S (k + 1))).done = false).map ⟨.succ, Nat.succ_injective⟩ : Finset Nat) := by
    ext k
    simp only [Finset.coe_map, Finset.coe_filter, Finset.mem_range]
    constructor
    · intro hk
      obtain ⟨j, rfl, hj⟩ := h.births.span_live hk
      exact ⟨j, ⟨hj, hk⟩, rfl⟩
    · rintro ⟨j, ⟨-, hj⟩, rfl⟩
      exact hj
  rw [hset, Set.ncard_coe_finset, Finset.card_map, ← Ledger.total_ite]
  refine Ledger.total_congr fun k _ => ?_
  simp only [spanRefs]
  cases (σ.scopes (.span S (k + 1))).done <;> simp

end count

end Manager

open Manager in
/-- In every run whose calls move only open scopes that are attached to their
edges, the reference count of every scope is the number of open scopes attached
to it, of its open spans, of the manager's own references and of the views open
on it; it is never negative. -/
theorem refCnt_exact {σ : Manager}
    (h : Reach Manager.step (fun σ op => σ.SetsOpen op ∧ σ.SetsAttached op)
      (newResourceManager limits cl al stickyProto stickyPeer) σ)
    {S : ScopeId} (hS : σ.skel.Created S) :
    (σ.scopes S).refCnt =
        (σ.holders S).ncard + (σ.openSpans S).ncard + pins S + σ.views.count S ∧
      0 ≤ (σ.scopes S).refCnt := by
  have hbal : σ.Balanced fun _ => True := by
    refine Reach.invariant (balanced_newResourceManager limits cl al stickyProto stickyPeer) ?_ h
    intro τ op _ hop hτ
    exact hτ.step hop.1 (Or.inl hop.2)
  have hgap := hbal.gap_zero hS trivial
  have hpins : 0 ≤ pins S := by unfold pins; split <;> omega
  simp only [gap, due, total_edgeRefs hbal.toSound, total_spanRefs hbal.toSound] at hgap
  omega

/-- A connection that has learnt its peer. -/
def peeredManager : Manager :=
  fourManager.run [.openConnectionNoIP .inbound true ⟨none⟩, .setPeer (.node 4) "a"]

theorem peeredManager_reach :
    Reach .step (fun σ op => σ.SetsOpen op ∧ σ.SetsAttached op) fourManager peeredManager :=
  .step (Op.setPeer (.node 4) "a")
    (.step (Op.openConnectionNoIP .inbound true ⟨none⟩) .init (by decide +kernel)) (by decide +kernel)

/-- The system scope is held by the connection, by the transient and the peer
scope, and by the manager. -/
theorem refCnt_exact_peer :
    (peeredManager.scopes system).refCnt =
        (peeredManager.holders system).ncard + (peeredManager.openSpans system).ncard +
          Manager.pins system + peeredManager.views.count system ∧
      0 ≤ (peeredManager.scopes system).refCnt :=
  refCnt_exact (.uniform fourLimit) .newConnLimiter {} (fun _ => false) (fun _ => false)
    peeredManager_reach ⟨0, rfl, by decide +kernel⟩

/-- Two connections whose peers are set after they were closed: the transient
scope ends with a negative count. -/
theorem setPeer_after_done :
    ((fourManager.run [.openConnectionNoIP .inbound true ⟨none⟩, .done (.node 4),
      .setPeer (.node 4) "a", .openConnectionNoIP .inbound true ⟨none⟩, .done (.node 6),
      .setPeer (.node 6) "a"]).scopes transient).refCnt = -1 := by
  decide +kernel

end Dep2p.Rcmgr
