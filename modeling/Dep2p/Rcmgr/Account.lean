import Mathlib.Tactic.Abel
import Dep2p.Rcmgr.Tally

/- Moving a connection or stream keeps the accounts.

   `Ledgered` says that the counters of shared scopes are what connections and
   streams hold of them. A migration breaks this on its way: between the
   reservations in the new scopes and the release in the old ones the counters are
   ahead of the holdings by what moves. `Charged σ τ d` says that `τ` is a point
   inside a call that started in `σ`, and `d` by how much each scope is ahead; the
   rules for the single steps (`look`, `enter`, `leave`, `refuse`) compute `d`, and
   a call ends well when `d` is what the edges of the moved scope changed by
   (`of_moved`), or nothing (`of_charged`). -/
namespace Dep2p.Rcmgr

open Lib List

variable {n : Nat} {S x : ScopeId} {nm : ScopeName} {st : ScopeStat} {c : ConnectionScope}

namespace Manager

/-- The counters of shared scopes, open or closed, are what is held of them. -/
structure Ledgered (σ : Manager) : Prop extends Sound σ where
  exact : ∀ {S}, σ.skel.SharedScope S → σ.use S = σ.holdings S
  nonneg : ∀ {n}, σ.closable (.node n) = true → 0 ≤ σ.use (.node n)
  bounded : σ.totalMemory < 2 ^ 63

/-- Inside a call that started in `σ`, the counters of the scopes that were there
are ahead by `d`; new scopes have no more than that. -/
structure Charged (σ τ : Manager) (d : ScopeId → Usage) : Prop where
  sound : τ.Sound
  kept : σ.Kept τ
  ext : σ.skel.Extends τ.skel
  use : ∀ n, n < τ.next → τ.use (.node n) =
    (if n < σ.next then σ.use (.node n) else 0) + d (.node n)

section charged

variable {σ τ ρ : Manager} {d : ScopeId → Usage}

theorem Sound.congr (h : σ.Sound) (hskel : τ.skel = σ.skel) (hmarks : τ.marks = σ.marks)
    (hviews : τ.views = σ.views) : τ.Sound where
  shape := hskel ▸ h.shape
  births := h.births.congr (congrArg Skeleton.next hskel) hmarks
  views v hv := hskel ▸ h.views v (hviews ▸ hv)

theorem Charged.refl (h : σ.Sound) : σ.Charged σ fun _ => 0 where
  sound := h
  kept := .refl σ
  ext := ⟨le_refl _, fun _ _ => rfl⟩
  use n hn := by rw [if_pos hn, add_zero]

theorem Charged.congr {d' : ScopeId → Usage} (h : σ.Charged τ d) (hd : ∀ S, d' S = d S) :
    σ.Charged τ d' :=
  ⟨h.sound, h.kept, h.ext, fun n hn => by rw [hd]; exact h.use n hn⟩

/-- A step that charges scopes by `e`. -/
theorem Charged.charge (h : σ.Charged τ d) {e : ScopeId → Usage} (hs : ρ.Sound) (hk : τ.Kept ρ)
    (hskel : ρ.skel = τ.skel) (huse : ∀ S, ρ.use S = τ.use S + e S) :
    σ.Charged ρ fun S => d S + e S where
  sound := hs
  kept := h.kept.trans hk
  ext := hskel ▸ h.ext
  use n hn := by
    have hnext : ρ.next = τ.next := congrArg Skeleton.next hskel
    rw [huse, h.use n (hnext ▸ hn), add_assoc]

/-- A step that changes no counter. -/
theorem Charged.quiet (h : σ.Charged τ d) (hs : ρ.Sound) (hk : τ.Kept ρ) (hskel : ρ.skel = τ.skel)
    (huse : ∀ S, ρ.use S = τ.use S) : σ.Charged ρ d :=
  (h.charge hs hk hskel fun S => by rw [huse, add_zero]).congr fun S => by
    rw [add_zero]

theorem lt_next_of_closable (h : σ.Sound) (hc : σ.closable (.node n) = true) :
    n < σ.next := by
  simp only [closable, Bool.or_eq_true, Option.isSome_iff_ne_none] at hc
  obtain ⟨m, hm, hlt⟩ : σ.skel.Created (.node n) := hc.elim h.shape.conns h.shape.streams
  cases hm
  exact hlt

theorem closable_of_shared (h : σ.Sound) (hS : σ.skel.SharedScope S) :
    σ.closable S = false := by
  by_contra hc
  exact not_shared_of_closable h (by simpa using hc) hS

theorem Ledgered.use_nonneg (h : σ.Ledgered) (hS : σ.skel.SharedScope S) :
    0 ≤ σ.use S := by
  rw [h.exact hS]
  exact holdings_nonneg h.nonneg

/-- The counters of a shared scope inside a call. A scope the call created was not
held by anybody. -/
theorem Charged.value (h : σ.Ledgered) (hc : σ.Charged τ d)
    (hS : τ.skel.SharedScope S) : τ.use S = σ.holdings S + d S := by
  obtain ⟨nm, ⟨n, rfl, hlt, hnm⟩, hshared⟩ := hS
  rw [hc.use n hlt]
  congr 1
  split
  · rename_i hn
    exact h.exact ⟨nm, ⟨n, rfl, hn, (hc.ext.name n hn).symm.trans hnm⟩, hshared⟩
  · rename_i hn
    refine (holdings_unattached fun m hm _ _ he => ?_).symm
    obtain ⟨k, hk, hlt'⟩ := h.shape.edge_created hm he
    injection hk with hk
    exact hn (hk ▸ hlt')

theorem nonneg_of_kept (h : σ.Ledgered) (hk : σ.Kept τ) (hs : τ.Sound)
    (hn : τ.closable (.node n) = true) : 0 ≤ τ.use (.node n) := by
  by_cases hlt : n < σ.next
  · have hkn := hk.old n hlt
    have hn' : σ.closable (.node n) = true := hkn.closable ▸ hn
    rw [hkn.use hn']
    exact h.nonneg hn'
  · exact (hk.new n (Nat.le_of_not_lt hlt) (lt_next_of_closable hs hn) hn).ge

/-- A call that charged nobody in the end. -/
theorem Ledgered.of_charged (h : σ.Ledgered) (hc : σ.Charged τ fun _ => 0) : τ.Ledgered where
  toSound := hc.sound
  exact hS := by rw [hc.value h hS, add_zero, hc.kept.holdings]
  nonneg hn := nonneg_of_kept h hc.kept hc.sound hn
  bounded := by rw [hc.kept.totalMemory]; exact h.bounded

/-! ### The steps of a call -/

section

variable (h : σ.Charged τ d)
include h

theorem Charged.decRef (x : ScopeId) : σ.Charged (τ.decRef x) d :=
  h.quiet (h.sound.congr (skel_decRef τ x) (marks_decRef τ) rfl) (kept_decRef x) (skel_decRef τ x)
    fun S => use_decRef x S

theorem Charged.incRef (x : ScopeId) : σ.Charged (τ.incRef x) d :=
  h.quiet (h.sound.congr (skel_incRef τ) (marks_incRef τ) rfl) (kept_incRef x) (skel_incRef τ)
    fun S => use_incRef x S

/-- A scope is created, or found. -/
theorem Charged.look (hd : d τ.fresh = 0) (hlook : τ.Looked ρ) (hshape : ρ.skel.Shape)
    (hext : τ.skel.Extends ρ.skel)
    (hconns : ∀ n, n < τ.next → ρ.conns (.node n) = τ.conns (.node n))
    (hstreams : ∀ n, n < τ.next → ρ.streams (.node n) = τ.streams (.node n)) : σ.Charged ρ d where
  sound := hlook.sound h.sound hshape
  kept := h.kept.trans (hlook.kept hconns hstreams)
  ext := h.ext.trans hext
  use n hn := by
    by_cases hlt : n < τ.next
    · have hne : .node n ≠ τ.fresh := fun heq => by injection heq with heq; omega
      rw [hlook.use hne, h.use n hlt]
    · -- the new scope
      have hsucc := hlook.next_succ
      have hle : σ.next ≤ τ.next := h.kept.next
      obtain rfl : n = τ.next := by omega
      have hzero : ρ.use (.node τ.next) = 0 := hlook.use_fresh (by omega)
      rw [hzero, if_neg (by omega), zero_add]
      exact hd.symm

theorem Charged.get (hd : d τ.fresh = 0) (hfound : τ.Found ρ x nm) (hlook : τ.Looked ρ) :
    σ.Charged (ρ.incRef x) d :=
  (h.look hd hlook hfound.shape hfound.ext (fun _ _ => congrFun hfound.conns _)
    fun _ _ => congrFun hfound.streams _).incRef x

theorem Charged.reserve (hx : τ.skel.SharedScope x) (hroom : τ.Room x st)
    (heq : τ.reserveForChild x st = (ρ, none)) : σ.Charged ρ fun S => d S + share x st.usage S := by
  have hq := quiet_reserveForChild heq
  exact h.charge (hq.sound h.sound) (kept_reserveForChild (closable_of_shared h.sound hx) heq)
    hq.skel fun S => use_reserveForChild_ok heq hroom

end

theorem Charged.refuse (hl : σ.Ledgered) (h : σ.Charged τ d)
    (hx : τ.skel.SharedScope x) (hd : d x = 0) {err : RcErr}
    (heq : τ.reserveForChild x st = (ρ, some err)) : σ.Charged ρ d := by
  have hq := quiet_reserveForChild heq
  refine h.quiet (hq.sound h.sound) (kept_reserveForChild (closable_of_shared h.sound hx) heq)
    hq.skel fun S => use_reserveForChild_err heq (fun _ => ?_)
  rw [h.value hl hx, hd, add_zero]
  exact holdings_nonneg hl.nonneg

theorem Charged.release (h : σ.Charged τ d) (hx : τ.skel.SharedScope x)
    (hlive : (τ.scopes x).done = false) (h₀ : 0 ≤ st.usage .memory) (hle : st.usage ≤ τ.use x) :
    σ.Charged (τ.releaseForChild x st) fun S => d S - share x st.usage S := by
  have hs : (τ.releaseForChild x st).Sound :=
    h.sound.congr (skel_releaseForChild τ) (marks_releaseForChild τ) rfl
  refine (h.charge hs
    (kept_releaseForChild (closable_of_shared h.sound hx)) (skel_releaseForChild τ)
    fun S => ?_).congr fun S => sub_eq_add_neg _ _
  rw [use_releaseForChild hlive h₀ hle, sub_eq_add_neg]

/-! ### Moving a connection or stream -/

/-- The `n`-th scope is an open connection or stream. -/
structure Holder (σ : Manager) (n : Nat) : Prop where
  isOpen : (σ.scopes (.node n)).done = false
  closable : σ.closable (.node n) = true

/-- A stat of an open connection or stream is reserved in a scope it is not
attached to: it fits on top of what is held there. -/
theorem Charged.enter (hl : σ.Ledgered) (h : σ.Charged τ d) (hn : σ.Holder n)
    (hx : τ.skel.SharedScope x) (hd : d x = 0)
    (hnot : x ∉ (σ.scopes (.node n)).edges) (hst : st.usage = σ.use (.node n))
    (heq : τ.reserveForChild x st = (ρ, none)) :
    σ.Charged ρ fun S => d S + share x (σ.use (.node n)) S := by
  have hval : τ.use x .memory = σ.holdings x .memory := by rw [h.value hl hx, hd, add_zero]
  have hroom := holdings_room hl.toSound hl.nonneg (lt_next_of_closable hl.toSound hn.closable) hnot
  have hb := hl.bounded
  rw [ownMemory_of_open hn.isOpen hn.closable] at hroom
  rw [← hst]
  refine h.reserve hx ⟨?_, ?_, ?_⟩ heq
  · rw [hval]; exact holdings_nonneg hl.nonneg .memory
  · rw [hst]; exact hl.nonneg hn.closable .memory
  · rw [hst]; omega

/-- A scope it is attached to is open and can give it back. -/
theorem Charged.leave (hl : σ.Ledgered) (hsec : σ.Secure) (h : σ.Charged τ d)
    (hn : σ.Holder n) (hd : d x = 0) (hmem : x ∈ (σ.scopes (.node n)).edges)
    (hst : st.usage = σ.use (.node n)) :
    σ.Charged (τ.releaseForChild x st) fun S => d S - share x (σ.use (.node n)) S := by
  have hlt := lt_next_of_closable hl.toSound hn.closable
  obtain ⟨nm, ⟨m, rfl, hm, hnm⟩, hshared⟩ := hl.shape.edge_shared hlt hmem
  have hx : τ.skel.SharedScope (.node m) :=
    ⟨nm, ⟨m, rfl, lt_of_lt_of_le hm h.ext.next, (h.ext.name m hm).trans hnm⟩, hshared⟩
  have hlive : (τ.scopes (.node m)).done = false :=
    (h.kept.old m hm).done.trans (hsec.attached hn.isOpen hmem)
  have hle : st.usage ≤ τ.use (.node m) := by
    rw [hst, h.value hl hx, hd, add_zero]
    exact use_le_holdings hl.nonneg hlt hn.isOpen hn.closable hmem
  rw [← hst]
  exact h.release hx hlive (by rw [hst]; exact hl.nonneg hn.closable .memory) hle

/-- The `n`-th scope was attached to other edges. -/
structure Moved (σ τ : Manager) (n : Nat) : Prop where
  next : τ.next = σ.next
  name : τ.skel.name = σ.skel.name
  others : ∀ m, m ≠ n → KeptNode σ τ m
  done : (τ.scopes (.node n)).done = (σ.scopes (.node n)).done
  conn : (τ.conns (.node n)).isSome = (σ.conns (.node n)).isSome
  stream : (τ.streams (.node n)).isSome = (σ.streams (.node n)).isSome
  use : ∀ S, τ.use S = σ.use S

theorem Moved.closable (h : Moved σ τ n) :
    τ.closable (.node n) = σ.closable (.node n) := by
  simp [Manager.closable, h.conn, h.stream]

/-- The end of a migration: every scope was charged once for each new edge and
gave back once for each old one. -/
theorem Ledgered.of_moved (hl : σ.Ledgered) (h : σ.Charged τ d) (hholder : σ.Holder n)
    (hm : Moved τ ρ n) (hs : ρ.Sound)
    (hd : ∀ S, d S = (ρ.scopes (.node n)).edges.count S • σ.use (.node n) -
      (σ.scopes (.node n)).edges.count S • σ.use (.node n)) : ρ.Ledgered := by
  obtain ⟨hlive, hc⟩ := hholder
  have hn : n < σ.next := lt_next_of_closable hl.toSound hc
  have hn' : n < τ.next := lt_of_lt_of_le hn h.kept.next
  have hk := h.kept.old n hn
  have hlive' : (τ.scopes (.node n)).done = false := hk.done.trans hlive
  have hc' : τ.closable (.node n) = true := hk.closable.trans hc
  have huse : τ.use (.node n) = σ.use (.node n) := hk.use hc
  have hothers := fun m (_ : m < τ.next) (hne : m ≠ n) => hm.others m hne
  refine ⟨hs, fun {S} hS => ?_, fun {m} hcm => ?_, ?_⟩
  · have hS' : τ.skel.SharedScope S := by
      obtain ⟨nm, ⟨m, rfl, hlt, hnm⟩, hshared⟩ := hS
      exact ⟨nm, ⟨m, rfl, lt_of_lt_of_eq hlt hm.next, (congrFun hm.name m).symm.trans hnm⟩, hshared⟩
    rw [hm.use, h.value hl hS', hd, holdings_change hn' hm.next hothers, h.kept.holdings,
      held_of_open hlive' hc', held_of_open (hm.done.trans hlive') (hm.closable.trans hc'), hm.use,
      huse, hk.edges]
    abel
  · by_cases hmn : m = n
    · subst hmn
      rw [hm.use, huse]; exact hl.nonneg hc
    · rw [hm.use]
      exact nonneg_of_kept hl h.kept h.sound ((hm.others m hmn).closable ▸ hcm)
  · rw [totalMemory_change hn' hm.next hothers, h.kept.totalMemory, ownMemory_of_open hlive' hc',
      ownMemory_of_open (hm.done.trans hlive') (hm.closable.trans hc'), hm.use]
    have hb := hl.bounded
    omega

theorem moved_setEdges (σ : Manager) (n : Nat) (edges : List ScopeId) :
    Moved σ (σ.setEdges (.node n) edges) n where
  next := rfl
  name := by rw [skel_setEdges]; rfl
  others m hne := by
    have hne' : ScopeId.node m ≠ .node n := by simpa using hne
    have hsame : (σ.setEdges (.node n) edges).scopes (.node m) = σ.scopes (.node m) :=
      Store.modify_of_ne hne' σ.scopes fun s => { s with edges }
    exact ⟨by rw [hsame], by rw [hsame], rfl, rfl, fun _ => use_setEdges _ _⟩
  done := congrArg Prod.fst (congrFun (marks_setEdges σ) (.node n))
  conn := rfl
  stream := rfl
  use S := use_setEdges _ _

variable {c₀ : ConnectionScope}

/-- The record of a connection changes too. -/
theorem Moved.setConn (h : Moved σ τ n)
    (hc : τ.conns (.node n) = some c₀) : Moved σ (τ.setConn (.node n) c) n where
  next := h.next
  name := h.name
  others m hne := by
    have hk := h.others m hne
    refine ⟨hk.done, hk.edges, ?_, hk.stream, hk.use⟩
    rw [← hk.conn]
    simp [Manager.setConn, Function.update_of_ne (show ScopeId.node m ≠ .node n by simpa using hne)]
  done := h.done
  conn := by rw [← h.conn, hc]; simp [Manager.setConn]
  stream := h.stream
  use S := h.use S

theorem Moved.setStream {s s₀ : StreamScope} (h : Moved σ τ n)
    (hs : τ.streams (.node n) = some s₀) : Moved σ (τ.setStream (.node n) s) n where
  next := h.next
  name := h.name
  others m hne := by
    have hk := h.others m hne
    refine ⟨hk.done, hk.edges, hk.conn, ?_, hk.use⟩
    rw [← hk.stream]
    simp only [Manager.setStream, Function.update_of_ne (show ScopeId.node m ≠ .node n by simpa using hne)]
  done := h.done
  conn := h.conn
  stream := by rw [← h.stream, hs]; simp [Manager.setStream]
  use S := h.use S

theorem setEdges_edges (σ : Manager) (id : ScopeId) (edges : List ScopeId) :
    ((σ.setEdges id edges).scopes id).edges = edges := by
  simp [setEdges, modify]

theorem share_self (u : Usage) : share x u x = u := if_pos rfl

theorem share_of_ne (h : S ≠ x) (u : Usage) : share x u S = 0 := if_neg h

/-- What a list of edges takes is what each of them takes. -/
theorem count_cons_smul (x : ScopeId) (edges : List ScopeId) (S : ScopeId) (u : Usage) :
    (x :: edges).count S • u = share x u S + edges.count S • u := by
  simp only [share, List.count_cons, beq_iff_eq, eq_comm (a := S)]
  split
  · rw [add_nsmul, one_nsmul, add_comm]
  · rw [add_zero, zero_add]

/-- A connection moves from the transient scope it is attached to into the scope
of its peer. -/
theorem Ledgered.joinPeer (h : σ.Ledgered) (hsec : σ.Secure)
    (hc : σ.conns (.node n) = some c₀) (hlive : (σ.scopes (.node n)).done = false) (p : PeerID)
    {system transient : ScopeId}
    (hsys : system = if c.isAllowlisted then allowlistedSystem else Rcmgr.system)
    (htr : transient = if c.isAllowlisted then allowlistedTransient else Rcmgr.transient)
    (hE : ∀ S, (σ.scopes (.node n)).edges.count S = [transient, system].count S) :
    (σ.joinPeer (.node n) c p system transient).1.Ledgered := by
  have hsound : (σ.joinPeer (.node n) c p system transient).1.Sound :=
    (h.toSound.balanced.joinPeer hc hlive p hsys fun _ hB => hB.elim).toSound
  have hholder : σ.Holder n := ⟨hlive, by simp [closable, hc]⟩
  have hn := lt_next_of_closable h.toSound hholder.closable
  obtain ⟨hfound, -⟩ := found_getPeerScope h.shape p
  have hget : σ.Charged (σ.getPeerScope p).1 fun _ => 0 :=
    (Charged.refl h.toSound).get rfl (found_lookupPeer h.shape).1 (looked_lookupPeer h.shape p)
  have hmem : ∀ e, e ∈ (σ.scopes (.node n)).edges ↔ e ∈ [transient, system] := by
    intro e; rw [← count_pos_iff, hE, count_pos_iff]
  -- the connection is not attached to the scope of its peer yet
  have hperm : ∀ e ∈ [transient, system], e ≠ (σ.getPeerScope p).2.scope := by
    have hshape := hfound.shape
    intro e he
    simp only [mem_cons, not_mem_nil, or_false, htr, hsys] at he
    cases hal : c.isAllowlisted <;>
      simp only [hal, Bool.false_eq_true, if_false, if_true] at he <;> rcases he with rfl | rfl
    · exact hshape.transient.ne hfound.named (by simp)
    · exact hshape.system.ne hfound.named (by simp)
    · exact hshape.allowlistedTransient.ne hfound.named (by simp)
    · exact hshape.allowlistedSystem.ne hfound.named (by simp)
  have hst : ((σ.getPeerScope p).1.stat (.node n)).usage = σ.use (.node n) :=
    (hget.kept.old n hn).use hholder.closable
  have hP : (σ.getPeerScope p).1.skel.SharedScope (σ.getPeerScope p).2.scope :=
    ⟨_, hfound.named, trivial⟩
  simp only [Manager.joinPeer] at hsound ⊢
  split
  · rename_i σ₁ err heq
    exact h.of_charged ((hget.refuse h hP rfl heq).decRef _)
  · rename_i σ₁ heq
    simp only [heq] at hsound
    have hent := hget.enter h hholder hP rfl (fun hin => hperm _ ((hmem _).mp hin) rfl) hst heq
    have hlve := hent.leave h hsec hholder
      (by rw [share_of_ne (hperm _ mem_cons_self), add_zero]) ((hmem _).mpr mem_cons_self)
      hst
    have hconn : σ₁.conns (.node n) = some c₀ := by
      rw [show σ₁.conns = _ from congrArg Skeleton.conns (quiet_reserveForChild heq).skel]
      exact (congrFun hfound.conns _).trans hc
    refine h.of_moved (hlve.decRef transient) hholder ((moved_setEdges _ n _).setConn hconn) hsound
      fun S => ?_
    simp only [setConn, setEdges_edges, hE]
    simp only [count_cons_smul, count_nil, zero_nsmul]
    abel

theorem releaseEdges_cons (edges : List ScopeId) :
    σ.releaseEdges (x :: edges) st = ((σ.releaseForChild x st).decRef x).releaseEdges edges st := by
  have hmod : σ.scopes.modify x (fun s => (s.releaseForChild st).decRef) =
      (σ.scopes.modify x (·.releaseForChild st)).modify x (·.decRef) := by
    funext y
    by_cases hy : y = x
    · subst hy; simp
    · simp [Store.modify_of_ne hy]
  simp [releaseEdges, Store.modifyEach_cons, hmod, releaseForChild, decRef, modify]

variable {edges : List ScopeId}

/-- A connection gives back what it has at all its edges. -/
theorem Charged.leaveAll (hl : σ.Ledgered) (hsec : σ.Secure) (hn : σ.Holder n)
    (hst : st.usage = σ.use (.node n)) (h : σ.Charged τ d)
    (hnodup : edges.Nodup) (hmem : ∀ x ∈ edges, x ∈ (σ.scopes (.node n)).edges)
    (hd : ∀ x ∈ edges, d x = 0) :
    σ.Charged (τ.releaseEdges edges st) fun S => d S - edges.count S • σ.use (.node n) := by
  induction edges generalizing τ d with
  | nil => exact h.congr fun S => by rw [count_nil, zero_nsmul, sub_zero]
  | cons x edges ih =>
    obtain ⟨hx, hnodup⟩ := nodup_cons.mp hnodup
    have hleft := (h.leave hl hsec hn (hd x mem_cons_self) (hmem x mem_cons_self)
      hst).decRef x
    rw [releaseEdges_cons]
    refine (ih hleft hnodup (fun y hy => hmem y (mem_cons_of_mem _ hy)) fun y hy => ?_).congr
      fun S => ?_
    · -- no edge is met twice
      have hne : y ≠ x := by rintro rfl; exact hx hy
      rw [hd y (mem_cons_of_mem _ hy), share_of_ne hne, sub_zero]
    · rw [count_cons_smul]; abel

section

variable (h : σ.Ledgered) (hsec : σ.Secure) (hc : σ.conns (.node n) = some c)
  (hpeer : c.peer = none) (hlive : (σ.scopes (.node n)).done = false)
include h hsec hc hpeer hlive

/-- The beginning of a transfer from the allowlist. -/
theorem Ledgered.leaveEdges :
    let τ := (σ.setConn (.node n) { c with isAllowlisted := false }).leaveEdges (.node n)
    τ.Ledgered ∧ τ.Holder n ∧ τ.use (.node n) = σ.use (.node n) := by
  have hholder : σ.Holder n := ⟨hlive, by simp [closable, hc]⟩
  have hn := lt_next_of_closable h.toSound hholder.closable
  have hnodup : (σ.scopes (.node n)).edges.Nodup := h.shape.edges_nodup hn
  have hst : (σ.stat (.node n)).usage = σ.use (.node n) := rfl
  have hleft := (Charged.refl h.toSound).leaveAll h hsec hholder hst hnodup (fun _ hx => hx)
    fun _ _ => rfl
  -- the flag is cleared before the edges are left, and could as well be cleared after
  have hcomm : (σ.setConn (.node n) { c with isAllowlisted := false }).leaveEdges (.node n) =
      (σ.leaveEdges (.node n)).setConn (.node n) { c with isAllowlisted := false } := rfl
  have hedges := leaveEdges_edges (σ.setConn (.node n) { c with isAllowlisted := false }) (.node n)
  have hmoved := (moved_setEdges (σ.releaseEdges (σ.scopes (.node n)).edges (σ.stat (.node n))) n
    []).setConn (c := { c with isAllowlisted := false }) hc
  have hk := hleft.kept.old n hn
  refine ⟨h.of_moved hleft hholder hmoved ⟨?_, ?_, h.views⟩ fun S => ?_,
    ⟨(hmoved.done.trans hk.done).trans hlive, (hmoved.closable.trans hk.closable).trans
      hholder.closable⟩, (hmoved.use _).trans (hk.use hholder.closable)⟩
  · rw [hcomm, skel_setConn, Manager.leaveEdges, skel_setEdges, skel_releaseEdges]
    exact h.shape.moveConn hc (.left hpeer rfl)
  · exact h.births.congr rfl (by simp)
  · rw [hedges, count_nil, zero_nsmul]

/-- A transfer from the allowlist that is not refused. -/
theorem Ledgered.transfer
    (heq : (σ.setConn (.node n) { c with isAllowlisted := false }).transferAllowedToStandard
      (.node n) = (τ, none)) : τ.Ledgered := by
  have hsound : τ.Sound := (h.toSound.balanced.transfer hc hpeer hlive heq).1.toSound
  obtain ⟨hleft, hholder, huse⟩ := h.leaveEdges hsec hc hpeer hlive
  have hedges := leaveEdges_edges (σ.setConn (.node n) { c with isAllowlisted := false }) (.node n)
  set σ₀ := (σ.setConn (.node n) { c with isAllowlisted := false }).leaveEdges (.node n) with hσ₀
  have hst : ((σ.setConn (.node n) { c with isAllowlisted := false }).stat (.node n)).usage =
      σ₀.use (.node n) := huse.symm
  have hnot : ∀ x, x ∉ (σ₀.scopes (.node n)).edges := fun x => by rw [hedges]; exact not_mem_nil
  simp only [transferAllowedToStandard] at heq
  split at heq
  · cases heq
  rename_i σ₁ heq₁
  have hsys : σ₀.skel.SharedScope system := ⟨_, hleft.shape.system, trivial⟩
  have h₁ := ((Charged.refl hleft.toSound).enter hleft hholder hsys rfl (hnot _) hst heq₁).incRef
    system
  split at heq
  · cases heq
  rename_i σ₂ heq₂
  obtain ⟨rfl, -⟩ := Prod.mk.inj heq
  have htr : (σ₁.incRef system).skel.SharedScope transient :=
    ⟨_, hleft.shape.transient.mono h₁.ext, trivial⟩
  have hne : transient ≠ system := by decide
  have h₂ := (h₁.enter hleft hholder htr (by rw [share_of_ne hne, add_zero]) (hnot _) hst
    heq₂).incRef transient
  refine hleft.of_moved h₂ hholder (moved_setEdges _ n _) hsound fun S => ?_
  rw [setEdges_edges, hedges]
  simp only [count_cons_smul]
  abel

end

/-- Setting the peer of `id` needs no transfer from the allowlist, or one that is
not refused. -/
def TransferOk (σ : Manager) (id : ScopeId) (p : PeerID) : Prop :=
  ∀ c ∈ σ.conns id, c.peer = none → c.isAllowlisted = true →
    σ.allowlist.allowedPeerAndMultiaddr p c.endpoint = false →
      ((σ.setConn id { c with isAllowlisted := false }).transferAllowedToStandard id).2 = none

variable {id : ScopeId}

theorem Ledgered.setPeer (h : σ.Ledgered) (hsec : σ.Secure)
    (hlive : (σ.scopes id).done = false) (hjoined : σ.conns id ≠ none → (σ.scopes id).edges ≠ [])
    {p : PeerID} (hok : σ.TransferOk id p) : (σ.setPeer id p).1.Ledgered := by
  refine setPeer_induction h (fun c sys tr hc hnone hsys htr => ?_) ?_
  · obtain ⟨n, k, rfl, -, -, -, hedges⟩ := h.shape.conn hc
    refine h.joinPeer hsec hc hlive p hsys htr fun S => ?_
    rw [hsys, htr]
    refine (connEdges_count hedges hnone fun he => ?_).trans (by split <;> rfl)
    exact absurd he (hjoined (by rw [hc]; exact Option.some_ne_none c))
  · intro c τ err hc hnone hal hallowed heq
    have herr := hok c hc hnone hal hallowed
    rw [heq] at herr
    obtain ⟨n, k, rfl, -⟩ := h.shape.conn hc
    refine ⟨fun hne => absurd herr hne, fun hnoerr => ?_⟩
    subst hnoerr
    have hl := h.transfer hsec hc hnone hlive heq
    have hsec₁ := Secure.transfer (σ := σ.setConn (.node n) _)
      (hsec.setConn) n heq
    obtain ⟨-, hlive₁, hedges₁⟩ := h.toSound.balanced.transfer hc hnone hlive heq
    have hconn := (shape_transfer h.shape hc hnone).2
    rw [heq] at hconn
    refine hl.joinPeer hsec₁ hconn hlive₁ p (by simp) (by simp) fun S => ?_
    rw [hedges₁ rfl]; exact count_perm

/-- Two scopes are looked up and charged one after the other. When the second
refuses, the first gives back what it took. -/
theorem Ledgered.stages (hl : σ.Ledgered) (hn : σ.Holder n)
    (hst : st.usage = σ.use (.node n)) {σ₀ σ₁ σ₂ σ₃ : Manager} {a b : ScopeId} {nm' : ScopeName}
    {err : Option RcErr} (hfound : σ.Found σ₀ a nm) (hlook : σ.Looked σ₀)
    (hopen : (σ₀.marks a).1 = false) (heq : (σ₀.incRef a).reserveForChild a st = (σ₁, none))
    (hfound' : σ₁.Found σ₂ b nm') (hlook' : σ₁.Looked σ₂)
    (heq' : (σ₂.incRef b).reserveForChild b st = (σ₃, err)) (hnm : nm.Shared) (hnm' : nm'.Shared)
    (hne : nm' ≠ nm) (ha : a ∉ (σ.scopes (.node n)).edges) (hb : b ∉ (σ.scopes (.node n)).edges) :
    (err = none → σ.Charged σ₃ fun S => share a (σ.use (.node n)) S + share b (σ.use (.node n)) S) ∧
      (err ≠ none → (((σ₃.releaseForChild a st).decRef a).decRef b).Ledgered) := by
  have hget := (Charged.refl hl.toSound).get rfl hfound hlook
  have ha₀ : (σ₀.incRef a).skel.Named a nm := skel_incRef σ₀ ▸ hfound.named
  have hq := quiet_reserveForChild heq
  have ha₁ : σ₁.skel.Named a nm := hq.skel ▸ ha₀
  have h₁ : σ.Charged σ₁ (share a (σ.use (.node n))) :=
    (hget.enter hl hn ⟨nm, ha₀, hnm⟩ rfl ha hst heq).congr fun S => (zero_add _).symm
  have h₂ := h₁.get (share_of_ne (fresh_ne ha₁) _) hfound' hlook'
  have ha₂ : (σ₂.incRef b).skel.Named a nm := skel_incRef σ₂ ▸ ha₁.mono hfound'.ext
  have hb₂ : (σ₂.incRef b).skel.Named b nm' := skel_incRef σ₂ ▸ hfound'.named
  have hzero : share a (σ.use (.node n)) b = 0 := share_of_ne (hb₂.ne ha₂ hne) _
  refine ⟨?_, ?_⟩
  · rintro rfl
    exact h₂.enter hl hn ⟨nm', hb₂, hnm'⟩ hzero hb hst heq'
  · intro herr
    obtain ⟨e, rfl⟩ := Option.ne_none_iff_exists'.mp herr
    have hq' := quiet_reserveForChild heq'
    have h₃ := h₂.refuse hl ⟨nm', hb₂, hnm'⟩ hzero heq'
    have ha₃ : σ₃.skel.SharedScope a := ⟨nm, hq'.skel ▸ ha₂, hnm⟩
    have hopen₃ : (σ₃.marks a).1 = false := by
      rw [hq'.marks, marks_incRef]
      refine hlook'.isOpen ha₁ ?_
      rw [hq.marks, marks_incRef]
      exact hopen
    have hle : st.usage ≤ σ₃.use a := by
      rw [h₃.value hl ha₃, share_self, hst]
      exact le_add_of_nonneg_left (holdings_nonneg hl.nonneg)
    have hback := h₃.release ha₃ hopen₃ (by rw [hst]; exact hl.nonneg hn.closable .memory) hle
    refine hl.of_charged (((hback.decRef a).decRef b).congr fun S => ?_)
    rw [hst, sub_self]

/-- A scope of another name is none of the edges. -/
theorem notMem_of_names {κ κ' : Skeleton} (hext : κ.Extends κ')
    (hx : κ'.Named x nm) (h : ∀ e ∈ edges, ∃ nm', κ.Named e nm' ∧ nm' ≠ nm) : x ∉ edges := by
  intro he
  obtain ⟨nm', hnm', hne⟩ := h x he
  exact (hnm'.mono hext).ne hx hne rfl

/-- A stream that enters a sector gives back what it leaves. -/
theorem Charged.leaves (hl : σ.Ledgered) (hsec : σ.Secure) (h : σ.Charged τ d)
    (hn : σ.Holder n) (t : Sector) (hleft : t.leaves ⊆ (σ.scopes (.node n)).edges)
    (hd : ∀ x ∈ (σ.scopes (.node n)).edges, d x = 0) (hst : st.usage = σ.use (.node n)) :
    σ.Charged (t.leaves.foldl (fun σ x => (σ.releaseForChild x st).decRef x) τ)
      fun S => d S - t.leaves.count S • σ.use (.node n) := by
  cases t with
  | protocol proto =>
    have hmem : transient ∈ (σ.scopes (.node n)).edges := hleft (mem_singleton_self _)
    refine ((h.leave hl hsec hn (hd _ hmem) hmem hst).decRef transient).congr fun S => ?_
    rw [Sector.leaves, count_cons_smul, count_nil, zero_nsmul, add_zero]
  | service svc => exact h.congr fun S => by rw [Sector.leaves, count_nil, zero_nsmul, sub_zero]

theorem Ledgered.setSector (h : σ.Ledgered) (hsec : σ.Secure)
    (hlive : (σ.scopes id).done = false) (t : Sector) : (σ.setSector id t).1.Ledgered := by
  have hsound := (h.toSound.balanced.setSector hlive t).toSound
  obtain ⟨err, heq⟩ | ⟨n, s, rfl, he, heq⟩ := setSector_cases h.shape id t <;> rw [heq] at hsound ⊢
  · exact h
  have hholder : σ.Holder n := ⟨hlive, by simp [closable, he.stream]⟩
  have hfound := found_lookupSector h.shape t
  have hlook := looked_lookupSector h.shape t
  have hget := (Charged.refl h.toSound).get rfl hfound hlook
  have hst : (((σ.lookupSector t).1.incRef (σ.lookupSector t).2).stat (.node n)).usage =
      σ.use (.node n) := (hget.kept.old n he.lt).use hholder.closable
  have ha : (σ.lookupSector t).2 ∉ (σ.scopes (.node n)).edges :=
    notMem_of_names hfound.ext hfound.named fun e hmem =>
      (he.names e hmem).imp fun nm hnm => ⟨hnm.1, hnm.2.1⟩
  simp only [enroll] at hsound ⊢
  split
  · rename_i σ₁ err heq
    have hnamed : ((σ.lookupSector t).1.incRef (σ.lookupSector t).2).skel.Named
        (σ.lookupSector t).2 t.name := by rw [skel_incRef]; exact hfound.named
    exact h.of_charged ((hget.refuse h ⟨_, hnamed, t.name_shared⟩ rfl heq).decRef _)
  · rename_i σ₁ heq
    obtain ⟨hfound₁, hfound'⟩ := found_second h.shape heq s.peer.peer
    have hb : (σ₁.lookupInside t (σ.lookupSector t).2 s.peer.peer).2 ∉ (σ.scopes (.node n)).edges :=
      notMem_of_names (hfound₁.ext.trans hfound'.ext) hfound'.named fun e hmem =>
        (he.names e hmem).imp fun nm hnm => ⟨hnm.1, hnm.2.2⟩
    have hstages := fun {τ err} (heq' : _ = (τ, err)) => h.stages hholder hst hfound hlook
      (hsec.lookupSector h.toSound t).isOpen heq hfound' (looked_lookupSubPeer _ _ _ _) heq'
      t.name_shared (t.peerName_shared _) (t.peerName_ne _) ha hb
    split
    · rename_i σ₂ err heq'
      exact (hstages heq').2 (by simp)
    · rename_i σ₂ heq'
      simp only [heq, heq'] at hsound
      have hleft := ((hstages heq').1 rfl).leaves h hsec hholder t he.left (fun x hx => by
        rw [share_of_ne (ne_of_mem_of_not_mem hx ha), share_of_ne (ne_of_mem_of_not_mem hx hb),
          add_zero]) hst
      have hstream : ∀ st, (t.leaves.foldl (fun σ x => (σ.releaseForChild x st).decRef x)
          σ₂).streams (.node n) = some s := by
        intro st
        refine (congrFun (congrArg Skeleton.streams (skel_leaves σ₂ t.leaves)) _).trans ?_
        refine (congrFun (congrArg Skeleton.streams (quiet_reserveForChild heq').skel) _).trans ?_
        exact (congrFun (hfound'.streams.trans hfound₁.streams) _).trans he.stream
      refine h.of_moved hleft hholder ((moved_setEdges _ n _).setStream (hstream _)) hsound
        fun S => ?_
      have hcount := congrArg (· • σ.use (.node n)) ((he.perm (σ.lookupSector t).2
        (σ₁.lookupInside t (σ.lookupSector t).2 s.peer.peer).2).count_eq S)
      simp only [count_append, add_nsmul, count_cons_smul] at hcount
      simp only [setStream, setEdges_edges]
      rw [sub_eq_sub_iff_add_eq_add, add_comm (_ • _) (_ • _),
        hcount, add_assoc]

end charged

end Manager

end Dep2p.Rcmgr
