import Dep2p.Rcmgr.Account

/- Resource accounting over the scope graph.

   In a run of calls on open scopes that keeps less than 2^63 bytes reserved,
   releases no more than was reserved, and in which no transfer from the allowlist
   is refused, the counters of a shared scope are the sums of those of the open
   connections and streams attached to it.

   What is proved:
     1. `Ledgered.acquire`, `Ledgered.releaseMemory`, `Ledgered.done`, …: calls
        that charge, open, close or collect keep the accounts.
     2. `Accounted.step`: so does every call of such a run.
     3. `accounting_exact`: the sums over whole runs, and all counters zero once
        every connection and stream is done. -/
namespace Dep2p.Rcmgr

open Lib Function List Skeleton Manager Resources Store

variable {n : Nat} {x : ScopeId} {r : Reservation} {edges : List ScopeId} {op : Op}

namespace Manager

section calls

variable {σ τ : Manager}

/-! ### Charging, closing and opening a connection or stream -/

/-- The edges of a connection or stream are shared scopes, each met once. -/
theorem Holder.edge_shared (h : σ.Sound) (hn : σ.Holder n) {e : ScopeId}
    (he : e ∈ (σ.scopes (.node n)).edges) : σ.skel.SharedScope e :=
  h.shape.edge_shared (lt_next_of_closable h hn.closable) he

theorem Holder.edges_nodup (h : σ.Sound) (hn : σ.Holder n) :
    (σ.scopes (.node n)).edges.Nodup :=
  h.shape.edges_nodup (lt_next_of_closable h hn.closable)

theorem Holder.notMem_edges (h : σ.Sound) {m : Nat} (hn : σ.Holder n)
    (hm : σ.closable (.node m) = true) : .node m ∉ (σ.scopes (.node n)).edges :=
  fun he => not_shared_of_closable h hm (hn.edge_shared h he)

theorem mem_path :
    x ∈ σ.scopes.path (.node n) ↔ x = .node n ∨ x ∈ (σ.scopes (.node n)).edges :=
  mem_cons

theorem Holder.path_nodup (h : σ.Sound) (hn : σ.Holder n) :
    (σ.scopes.path (.node n)).Nodup :=
  nodup_cons.mpr ⟨hn.notMem_edges h hn.closable, hn.edges_nodup h⟩

/-- A connection or stream and every scope it is attached to are charged by `v`. -/
theorem Ledgered.of_path (h : σ.Ledgered) (hn : σ.Holder n) {v : Usage} (hq : σ.Quiet τ)
    (huse : ∀ x, τ.use x =
      if x ∈ σ.scopes.path (.node n) then σ.use x + v else σ.use x)
    (hnn : 0 ≤ σ.use (.node n) + v) (hb : σ.totalMemory + v .memory < 2 ^ 63) : τ.Ledgered := by
  have hlt := lt_next_of_closable h.toSound hn.closable
  have hconns : τ.conns = σ.conns := congrArg Skeleton.conns hq.skel
  have hstreams : τ.streams = σ.streams := congrArg Skeleton.streams hq.skel
  have hclos : ∀ m, τ.closable (.node m) = σ.closable (.node m) := fun m => by
    simp [closable, hconns, hstreams]
  have hself : τ.use (.node n) = σ.use (.node n) + v := by
    rw [huse, if_pos (mem_path.mpr (.inl rfl))]
  have hother : ∀ m, m ≠ n → σ.closable (.node m) = true → τ.use (.node m) = σ.use (.node m) := by
    intro m hne hm
    rw [huse, if_neg]
    intro hmem
    rcases mem_path.mp hmem with heq | hmem
    · exact hne (by injection heq)
    · exact hn.notMem_edges h.toSound hm hmem
  have hothers : ∀ m, m < σ.next → m ≠ n → KeptNode σ τ m := fun m _ hne =>
    ⟨hq.done _, hq.edges m, by rw [hconns], by rw [hstreams], hother m hne⟩
  have hopen : (τ.scopes (.node n)).done = false := (hq.done _).trans hn.isOpen
  have hcl : τ.closable (.node n) = true := (hclos n).trans hn.closable
  refine ⟨hq.sound h.toSound, fun {S} hS => ?_, fun {m} hm => ?_, ?_⟩
  · rw [hq.skel] at hS
    have hne : S ≠ .node n := by
      rintro rfl; exact not_shared_of_closable h.toSound hn.closable hS
    rw [holdings_change hlt hq.next hothers, held_of_open hn.isOpen hn.closable,
      held_of_open hopen hcl, hq.edges, hself, ← h.exact hS, huse]
    by_cases hmem : S ∈ (σ.scopes (.node n)).edges
    · rw [if_pos (mem_path.mpr (.inr hmem)),
        count_eq_one_of_mem (hn.edges_nodup h.toSound) hmem]
      abel
    · rw [if_neg (fun hin => (mem_path.mp hin).elim hne hmem), count_eq_zero.mpr hmem,
        zero_nsmul, zero_nsmul, sub_zero, add_zero]
  · by_cases hmn : m = n
    · rw [hmn, hself]; exact hnn
    · have hm' : σ.closable (.node m) = true := hclos m ▸ hm
      rw [hother m hmn hm']; exact h.nonneg hm'
  · rw [totalMemory_change hlt hq.next hothers, ownMemory_of_open hn.isOpen hn.closable,
      ownMemory_of_open hopen hcl, hself]
    have hadd : (σ.use (.node n) + v) .memory = σ.use (.node n) .memory + v .memory := rfl
    omega

/-- What an accepted reservation asks for is not negative. -/
theorem usage_nonneg_of_take {rc rc' : Resources} (h : r.take rc = .ok rc') :
    0 ≤ r.usage := by
  refine usage_nonneg_iff.mpr ?_
  cases r with
  | memory size prio =>
    exact ⟨checkMemory_none (reserveMemory_ok h).1, le_refl _, le_refl _,
      le_refl _, le_refl _, le_refl _⟩
  | stream dir => cases dir <;> simp [Reservation.usage, streamUsage]
  | conn dir usefd =>
    cases dir <;> simp [Reservation.usage, connUsage, fdCount_nonneg]

theorem Ledgered.path_nonneg (h : σ.Ledgered) (hn : σ.Holder n)
    (hx : x ∈ σ.scopes.path (.node n)) : 0 ≤ σ.use x := by
  rcases mem_path.mp hx with rfl | hx
  · exact h.nonneg hn.closable
  · exact h.use_nonneg (hn.edge_shared h.toSound hx)

/-- No scope counts more memory than there is. -/
theorem Ledgered.path_memory (h : σ.Ledgered) (hn : σ.Holder n)
    (hx : x ∈ σ.scopes.path (.node n)) : σ.use x .memory ≤ σ.totalMemory := by
  rcases mem_path.mp hx with rfl | hx
  · rw [← ownMemory_of_open hn.isOpen hn.closable]
    refine Ledger.le_total (lt_next_of_closable h.toSound hn.closable) fun m _ => ?_
    simp only [ownMemory]
    split
    · rename_i hc; exact h.nonneg hc.2 .memory
    · exact le_refl _
  · rw [h.exact (hn.edge_shared h.toSound hx)]
    exact holdings_le h.toSound h.nonneg

variable {err : Option RcErr}

/-- A reservation on an open connection or stream, accepted or refused. -/
theorem Ledgered.acquire (h : σ.Ledgered) (hn : σ.Holder n)
    (heq : σ.acquire r (.node n) = (τ, err))
    (hfit : err = none → σ.totalMemory + r.usage .memory < 2 ^ 63) : τ.Ledgered := by
  have hq := quiet_acquire heq
  have hrun : σ.scopes.acquire r (.node n) = (τ.scopes, err) := by
    obtain ⟨rfl, rfl⟩ := Prod.mk.inj heq; rfl
  have hnodup := hn.path_nodup h.toSound
  rcases forall_or_first (fun x => (σ.scopes x).Admits r) (σ.scopes.path (.node n)) with
    hall | ⟨pre, x, post, hp, hpre, hx⟩
  · -- every scope of the path takes it
    have hok := (Graph.acquire_charges (.node n) σ.scopes hnodup).accepts hall
    rw [hrun] at hok
    obtain rfl : err = none := congrArg Prod.snd hok
    have hb := hfit rfl
    have hfits : ∀ y ∈ σ.scopes.path (.node n), r.Fits (σ.scopes y).rc := by
      intro y hy
      have hle := h.path_memory hn hy
      cases r with
      | memory size prio =>
        have hmem : (σ.scopes y).rc.memory.toInt ≤ σ.totalMemory := hle
        have hb' : σ.totalMemory + size.toInt < 2 ^ 63 := hb
        simp only [Reservation.Fits]
        omega
      | stream dir | conn dir usefd => trivial
    have hao := (Graph.allOrNothing_of_admits hnodup hall).mpr hfits
    simp only [Graph.AllOrNothing, hrun] at hao
    obtain ⟨-, rc, htake⟩ := ResourceScope.admits_iff.mp (hall _ (mem_path.mpr (.inl rfl)))
    refine h.of_path hn hq (fun y => ?_) (add_nonneg (h.nonneg hn.closable)
      (usage_nonneg_of_take htake)) hb
    have hy := hao y
    split
    · rename_i hmem; rw [if_pos hmem] at hy; exact hy
    · rename_i hmem; rw [if_neg hmem] at hy; rw [use, hy]; rfl
  · -- one refuses, and those before it get back what they had
    have hundo : ∀ y ∈ pre, r.Undoable (σ.scopes y).rc := fun y hy =>
      Reservation.undoable_of_nonneg (h.path_nonneg hn (by rw [hp]; exact mem_append_left _ hy))
    have hao := (Graph.allOrNothing_of_refuses hnodup hp hpre hx).mpr hundo
    obtain ⟨e, hbad⟩ := (Graph.acquire_charges (.node n) σ.scopes hnodup).refuses pre x post hp
      hpre hx
    rw [hrun] at hbad
    obtain rfl : err = some e := congrArg Prod.snd hbad
    simp only [Graph.AllOrNothing, hrun] at hao
    exact h.of_charged ((Charged.refl h.toSound).quiet (hq.sound h.toSound)
      (kept_of_skel hq.skel hq.marks fun m _ => hao _) hq.skel hao)

/-- A release of memory the connection or stream has. -/
theorem Ledgered.releaseMemory (h : σ.Ledgered) (hsec : σ.Secure) (hn : σ.Holder n)
    {size : Int64} (hle : size.toInt ≤ σ.use (.node n) .memory)
    (hb : σ.totalMemory - size.toInt < 2 ^ 63) :
    Ledgered { σ with scopes := σ.scopes.releaseMemory (.node n) size } := by
  have hpath : ∀ x ∈ σ.scopes.path (.node n),
      size.toInt ≤ σ.use x .memory ∧ σ.use x .memory - size.toInt < 2 ^ 63 := by
    intro x hx
    have hmem := h.path_memory hn hx
    refine ⟨?_, by omega⟩
    rcases mem_path.mp hx with rfl | hx
    · exact hle
    · rw [h.exact (hn.edge_shared h.toSound hx)]
      exact hle.trans (use_le_holdings h.nonneg (lt_next_of_closable h.toSound hn.closable)
        hn.isOpen hn.closable hx .memory)
  refine h.of_path hn (v := memoryUsage (-size.toInt)) (quiet_releaseMemory size) (fun x => ?_)
    (usage_nonneg_iff.mpr ?_) ?_
  · have hself := hn.notMem_edges h.toSound hn.closable
    simp only [use, Graph.releaseMemory, Graph.release, hn.isOpen, Bool.false_eq_true, if_false,
      Graph.forEdges]
    rw [modifyEach_of_nodup (hn.edges_nodup h.toSound)]
    split
    · rename_i hx
      have hne : x ≠ .node n := by rintro rfl; exact hself hx
      have hlive : (σ.scopes x).done = false := hsec.attached hn.isOpen hx
      obtain ⟨h₁, h₂⟩ := hpath x (mem_path.mpr (.inr hx))
      rw [if_pos (mem_path.mpr (.inr hx)), modify_of_ne hne]
      simp only [ResourceScope.forChild, hlive]
      exact releaseMemory_usage h₁ h₂
    · rename_i hx
      by_cases hxn : x = .node n
      · subst hxn
        obtain ⟨h₁, h₂⟩ := hpath _ (mem_path.mpr (.inl rfl))
        rw [if_pos (mem_path.mpr (.inl rfl)), modify_self]
        exact releaseMemory_usage h₁ h₂
      · rw [if_neg fun hmem => (mem_path.mp hmem).elim hxn hx, modify_of_ne hxn]
  · obtain ⟨-, h₁, h₂, h₃, h₄, h₅⟩ := usage_nonneg_iff.mp (h.nonneg hn.closable)
    simp only [Pi.add_apply, memoryUsage, add_zero]
    exact ⟨by omega, h₁, h₂, h₃, h₄, h₅⟩
  · simp only [memoryUsage]
    omega

/-- Closing a scope whose edges are open and have at least what it has. -/
theorem use_doneUnlocked (hlive : (σ.scopes (.node n)).done = false)
    (hnodup : (σ.scopes (.node n)).edges.Nodup) (hedges : ∀ e ∈ (σ.scopes (.node n)).edges,
      (σ.scopes e).done = false ∧ σ.use (.node n) ≤ σ.use e)
    (h₀ : 0 ≤ σ.use (.node n) .memory) (x : ScopeId) :
    (σ.doneUnlocked (.node n)).use x =
      if x = .node n then 0
      else σ.use x - (σ.scopes (.node n)).edges.count x • σ.use (.node n) := by
  simp only [use, doneUnlocked, Graph.doneUnlocked, hlive, Bool.false_eq_true, if_false,
    Graph.detach]
  split
  · rename_i hx
    rw [hx, modify_self]
    exact usage_zero _
  · rename_i hx
    rw [modify_of_ne hx, modifyEach_of_nodup hnodup]
    split
    · rename_i hmem
      obtain ⟨hopen, hle⟩ := hedges x hmem
      rw [count_eq_one_of_mem hnodup hmem, one_nsmul]
      simp only [ResourceScope.releaseForChild, ResourceScope.forChild, hopen]
      exact release_usage h₀ hle
    · rename_i hmem
      rw [count_eq_zero.mpr hmem, zero_nsmul, sub_zero]

theorem doneUnlocked_edges (σ : Manager) (id : ScopeId) (m : Nat) :
    ((σ.doneUnlocked id).scopes (.node m)).edges = (σ.scopes (.node m)).edges :=
  congrFun (congrArg edges (skel_doneUnlocked σ)) m

/-- An open connection or stream is closed. -/
theorem Ledgered.doneUnlocked (h : σ.Ledgered) (hsec : σ.Secure) (hn : σ.Holder n) :
    (σ.doneUnlocked (.node n)).Ledgered := by
  have hlt := lt_next_of_closable h.toSound hn.closable
  have hnext : (σ.doneUnlocked (.node n)).next = σ.next := rfl
  have huse := use_doneUnlocked hn.isOpen (hn.edges_nodup h.toSound) (fun e he =>
    ⟨hsec.attached hn.isOpen he, by
      rw [h.exact (hn.edge_shared h.toSound he)]
      exact use_le_holdings h.nonneg hlt hn.isOpen hn.closable he⟩) (h.nonneg hn.closable .memory)
  have hdone := doneUnlocked_done σ (.node n)
  have hothers : ∀ m, m < σ.next → m ≠ n → KeptNode σ (σ.doneUnlocked (.node n)) m := by
    intro m _ hne
    have hne' : ScopeId.node m ≠ .node n := by simpa using hne
    refine ⟨by rw [hdone, if_neg hne'], doneUnlocked_edges σ _ m, rfl, rfl, fun hm => ?_⟩
    rw [huse, if_neg hne', count_eq_zero.mpr (hn.notMem_edges h.toSound hm), zero_nsmul,
      sub_zero]
  have hclosed : ((σ.doneUnlocked (.node n)).scopes (.node n)).done = true := by
    rw [hdone, if_pos rfl]
  refine ⟨h.toSound.doneUnlocked, fun {S} hS => ?_, fun {m} hm => ?_, ?_⟩
  · rw [skel_doneUnlocked] at hS
    have hne : S ≠ .node n := by
      rintro rfl; exact not_shared_of_closable h.toSound hn.closable hS
    rw [holdings_change hlt hnext hothers, held_of_open hn.isOpen hn.closable, held_of_done hclosed,
      huse, if_neg hne, h.exact hS, add_zero]
  · by_cases hmn : m = n
    · rw [hmn, huse, if_pos rfl]
    · rw [(hothers m (lt_next_of_closable h.toSound hm) hmn).use hm]
      exact h.nonneg hm
  · rw [totalMemory_change hlt hnext hothers, ownMemory_of_done hclosed,
      ownMemory_of_open hn.isOpen hn.closable]
    have hpos : 0 ≤ σ.use (.node n) .memory := h.nonneg hn.closable .memory
    have hb := h.bounded
    omega

theorem Ledgered.setConnLimiter (h : σ.Ledgered) (cl : ConnLimiter) :
    (σ.setConnLimiter cl).Ledgered :=
  ⟨⟨h.shape, h.births, h.views⟩, h.exact, h.nonneg, h.bounded⟩

/-- `Done` on a connection or stream, open or not. -/
theorem Ledgered.done (h : σ.Ledgered) (hsec : σ.Secure)
    (hn : σ.closable (.node n) = true) : (σ.done (.node n)).Ledgered := by
  cases hopen : (σ.scopes (.node n)).done with
  | true =>
    have hsame : ∀ τ : Manager, τ.scopes = σ.scopes → τ.doneUnlocked (.node n) = τ := by
      intro τ hτ
      simp only [Manager.doneUnlocked, Graph.doneUnlocked, hτ, hopen, if_true]
      rw [← hτ]
    simp only [Manager.done, connDone, hopen, hsame σ rfl]
    split <;> exact h
  | false =>
    simp only [Manager.done, connDone, hopen, Bool.false_eq_true, if_false]
    split
    · split
      · exact h.doneUnlocked hsec ⟨hopen, hn⟩
      · rename_i ip _
        exact doneUnlocked (h.setConnLimiter (σ.connLimiter.rmConn ip)) hsec ⟨hopen, hn⟩
    · exact h.doneUnlocked hsec ⟨hopen, hn⟩

/-- A connection or stream that was just created holds nothing, so whatever it
reserves next is accounted for; and it is closed when it is refused. -/
theorem Ledgered.opened (h : σ.Ledgered) (hsec : σ.Secure) (hn : σ.Holder n)
    (hr : r.usage .memory = 0) (heq : σ.acquire r (.node n) = (τ, err)) :
    τ.Ledgered ∧ τ.Secure ∧ (τ.done (.node n)).Ledgered := by
  have hq := quiet_acquire heq
  have hl : τ.Ledgered := h.acquire hn heq fun _ => by rw [hr, add_zero]; exact h.bounded
  have hsec' := hq.secure hsec
  have hcl : τ.closable (.node n) = true := by
    have hconns : τ.conns = σ.conns := congrArg Skeleton.conns hq.skel
    have hstreams : τ.streams = σ.streams := congrArg Skeleton.streams hq.skel
    simp only [closable, hconns, hstreams]
    exact hn.closable
  exact ⟨hl, hsec', hl.done hsec' hcl⟩

theorem fresh_open (limit : Limit) (name : ScopeName) :
    ((σ.newResourceScope limit edges name).scopes (.node σ.next)).done = false :=
  marks_fresh σ limit edges name

variable {c : ConnectionScope} {dir : Direction} {p : PeerID}

section

variable (h : σ.Ledgered)
include h

/-- A connection or stream is created. -/
theorem Ledgered.created (edges : List ScopeId) (name : ScopeName) (hlook : σ.Looked τ)
    (hshape : τ.skel.Shape) (hnext : τ.skel.next = (σ.skel.alloc edges name).next)
    (hname : τ.skel.name = (σ.skel.alloc edges name).name)
    (hconns : ∀ x, x ≠ σ.fresh → τ.conns x = σ.conns x)
    (hstreams : ∀ x, x ≠ σ.fresh → τ.streams x = σ.streams x) : τ.Ledgered := by
  have hext := extends_alloc σ.skel edges name
  have hne : ∀ n, n < σ.next → .node n ≠ σ.fresh := fun n hn heq => by
    injection heq with heq; omega
  exact h.of_charged ((Charged.refl h.toSound).look rfl hlook hshape
    ⟨hnext ▸ hext.next, fun n hn => by rw [hname]; exact hext.name n hn⟩
    (fun n hn => hconns _ (hne n hn)) fun n hn => hstreams _ (hne n hn))

theorem Ledgered.newConn (hc : c.peer = none) :
    (σ.newConn c).Ledgered ∧ (σ.newConn c).Holder σ.next := by
  have hskel : (σ.newConn c).skel =
      (σ.skel.alloc c.firstEdges (.conn (σ.connId + 1))).setConn σ.fresh c := by
    simp only [Manager.newConn, skel_setConn, skel_newResourceScope]; rfl
  refine ⟨h.created c.firstEdges _ (looked_newConn h.shape) (shape_newConn h.shape hc) rfl
    (by rw [hskel]; rfl) (fun x hx => update_of_ne hx _ _) fun _ _ => rfl,
    fresh_open _ _, ?_⟩
  simp [closable, Manager.newConn, setConn, fresh]

theorem Ledgered.newStreamScope (dir : Direction) {peer : PeerScope}
    (hp : σ.skel.Named peer.scope (.peer peer.peer)) :
    (σ.newStreamScope dir peer).Ledgered ∧ (σ.newStreamScope dir peer).Holder σ.next := by
  have hskel : (σ.newStreamScope dir peer).skel = (σ.skel.alloc
      [peer.scope, transient, system] (.stream (σ.streamId + 1))).setStream σ.fresh
      { dir, peer } := by
    simp only [Manager.newStreamScope, skel_setStream, skel_newResourceScope]; rfl
  refine ⟨h.created [peer.scope, transient, system] _ (looked_newStreamScope h.shape dir hp)
    (shape_newStreamScope h.shape dir hp) rfl (by rw [hskel]; rfl) (fun _ _ => rfl)
      fun x hx => update_of_ne hx _ _,
    fresh_open _ _, ?_⟩
  simp [closable, Manager.newStreamScope, setStream, fresh]

theorem Ledgered.attempt (hsec : σ.Secure) (hc : c.peer = none) :
    (σ.attempt c).Ledgered ∧ ((σ.attempt c).done σ.fresh).Ledgered := by
  obtain ⟨hnew, hholder⟩ := h.newConn hc
  have hacq : (σ.newConn c).acquire (.conn c.dir c.usefd) σ.fresh = (σ.attempt c, _) :=
    Prod.ext rfl rfl
  obtain ⟨hl, -, hdone⟩ := hnew.opened (hsec.newConn h.toSound) hholder rfl hacq
  exact ⟨hl, hdone⟩

theorem Ledgered.openConnection (hsec : σ.Secure) (usefd : Bool)
    (endpoint : Endpoint) (ip : Option Addr) :
    (σ.openConnection dir usefd endpoint ip).1.Ledgered := by
  refine (openConnection_induction (I := fun σ => σ.Ledgered ∧ σ.Secure) ?_ ?_ ?_ ⟨h, hsec⟩ dir usefd
    endpoint ip).1
  · exact fun _ cl h => ⟨h.1.setConnLimiter cl, h.2⟩
  · exact fun _ c hc h => ⟨(h.1.attempt h.2 hc).1, h.2.attempt h.1.toSound⟩
  · exact fun _ c hc h => ⟨(h.1.attempt h.2 hc).2, h.2.refused h.1.toSound hc⟩

theorem Ledgered.openStream (hsec : σ.Secure) :
    (σ.openStream p dir).1.Ledgered := by
  obtain ⟨hfound, hp⟩ := found_getPeerScope h.shape p
  have hgot := h.of_charged ((Charged.refl h.toSound).get rfl (found_lookupPeer h.shape).1
    (looked_lookupPeer h.shape p))
  obtain ⟨hopen, hentry⟩ := hsec.getPeerScope h.toSound p
  have hn : (σ.getPeerScope p).1.skel.Named (σ.getPeerScope p).2.scope
      (.peer (σ.getPeerScope p).2.peer) := by rw [hp]; exact hfound.named
  obtain ⟨hnew, hholder⟩ := newStreamScope hgot dir hn
  have hsec₀ := (hopen.secure.newStreamScope hgot.toSound dir (by rw [hp]; exact hentry)).decRef
    (σ.getPeerScope p).2.scope
  have hdec := hnew.of_charged ((Charged.refl hnew.toSound).decRef (σ.getPeerScope p).2.scope)
  have hholder' : (((σ.getPeerScope p).1.newStreamScope dir (σ.getPeerScope p).2).decRef
      (σ.getPeerScope p).2.scope).Holder (σ.getPeerScope p).1.next :=
    ⟨(congrArg Prod.fst (congrFun (marks_decRef _) _)).trans hholder.isOpen, hholder.closable⟩
  simp only [Manager.openStream]
  split
  · rename_i σ₁ heq
    exact (hdec.opened hsec₀ hholder' rfl heq).1
  · rename_i σ₁ err heq
    exact (hdec.opened hsec₀ hholder' rfl heq).2.2

/-! ### Collecting -/

/-- A shared scope that nobody is attached to has nothing to give back. -/
theorem use_doneUnlocked_unused (hsec : σ.Secure) {S : ScopeId} (hS : σ.skel.SharedScope S)
    (hfree : ∀ n, (σ.marks (.node n)).1 = false → S ∉ σ.skel.edges n) :
    (σ.doneUnlocked S).use x = σ.use x := by
  have hzero : σ.use S = 0 := by
    rw [h.exact hS]
    exact holdings_unattached fun n _ hopen _ => hfree n hopen
  obtain ⟨nm, ⟨n, rfl, hlt, hnm⟩, hshared⟩ := hS
  cases hopen : (σ.scopes (.node n)).done with
  | true =>
    simp [doneUnlocked, Graph.doneUnlocked, hopen]
  | false =>
    rw [use_doneUnlocked hopen (h.shape.edges_nodup hlt) (fun e he => ⟨?_, ?_⟩)
      (by rw [hzero]; exact le_refl _), hzero, nsmul_zero, sub_zero]
    · split
      · rename_i hx; rw [hx, hzero]
      · rfl
    · exact hsec.attached hopen he
    · rw [hzero]; exact h.use_nonneg (h.shape.edge_shared hlt he)

end

theorem Ledgered.collected (hsec : σ.Secure) (hs : τ.Sound) (hcol : σ.Collected τ)
    (h : σ.Ledgered) : τ.Ledgered := by
  cases hcol with
  | spared heq => rw [heq]; exact h
  | @closed S hS hfree hscopes hnext hconns hstreams =>
    have huse : ∀ x, τ.use x = σ.use x := fun x => by
      rw [← use_doneUnlocked_unused h hsec hS hfree, use, use, hscopes]
    have hname : ∀ m, (τ.scopes (.node m)).name = (σ.scopes (.node m)).name := fun m => by
      rw [hscopes]; exact congrFun (congrArg name (skel_doneUnlocked σ)) m
    have hclos : ∀ m, τ.closable (.node m) = σ.closable (.node m) := fun m => by
      simp [closable, hconns, hstreams]
    have hnc := closable_of_shared h.toSound hS
    obtain ⟨nm, ⟨n, rfl, hlt, hnm⟩, hshared⟩ := hS
    have hothers : ∀ m, m < σ.next → m ≠ n → KeptNode σ τ m := by
      intro m _ hne
      have hne' : ScopeId.node m ≠ .node n := by simpa using hne
      refine ⟨?_, ?_, by rw [hconns], by rw [hstreams], fun _ => huse _⟩
      · rw [hscopes, doneUnlocked_done, if_neg hne']
      · rw [hscopes]; exact doneUnlocked_edges σ _ m
    -- the closed scope is no holder, before or after
    have hnc' : τ.closable (.node n) = false := (hclos n).trans hnc
    refine ⟨hs, fun {S'} hS' => ?_, fun {m} hm => ?_, ?_⟩
    · have hold : σ.skel.SharedScope S' := by
        obtain ⟨nm', ⟨m, rfl, hm, hnm'⟩, hsh⟩ := hS'
        exact ⟨nm', ⟨m, rfl, lt_of_lt_of_eq hm hnext, (hname m).symm.trans hnm'⟩, hsh⟩
      rw [huse, h.exact hold, holdings_change hlt hnext hothers, held_of_shared hnc,
        held_of_shared hnc', sub_zero, add_zero]
    · rw [huse]; exact h.nonneg (hclos m ▸ hm)
    · rw [totalMemory_change hlt hnext hothers, ownMemory_of_shared hnc,
        ownMemory_of_shared hnc', sub_zero, add_zero]
      exact h.bounded

theorem Ledgered.gc (h : σ.Ledgered) (hsafe : σ.Safe) (order : GcOrder) : (σ.gc order).Ledgered :=
  hsafe.gc_keeps (fun hσ hτ hcol hl => hl.collected hσ.secure hτ.toSound hcol) h order

/-! ### Connections have edges

A refused transfer is the only thing that leaves a connection without edges. -/

/-- Every connection has edges. -/
def Joined (κ : Skeleton) : Prop := ∀ n, κ.conns (.node n) ≠ none → κ.edges n ≠ []

section joined

variable {κ κ' : Skeleton}

section

variable (h : Joined κ)
include h

/-- The connections there were keep their edges, and new ones have some. -/
theorem Joined.extend
    (hold : ∀ n, n < κ.next → κ'.conns (.node n) = κ.conns (.node n) ∧ κ'.edges n = κ.edges n)
    (hnew : ∀ n, κ.next ≤ n → κ'.conns (.node n) ≠ none → κ'.edges n ≠ []) : Joined κ' := by
  intro n hn
  by_cases hlt : n < κ.next
  · obtain ⟨hc, he⟩ := hold n hlt
    rw [he]
    exact h n (hc ▸ hn)
  · exact hnew n (Nat.le_of_not_lt hlt) hn

theorem Joined.setEdges (hne : edges ≠ []) : Joined (κ.setEdges (.node n) edges) := by
  intro m hm
  simp only [Skeleton.setEdges, update_apply]
  split
  · exact hne
  · exact h m hm

theorem Joined.setConn (hne : κ.edges n ≠ []) (c : ConnectionScope) :
    Joined (κ.setConn (.node n) c) := by
  intro m hm
  simp only [Skeleton.setConn, update_apply] at hm
  split at hm
  · rename_i heq
    injection heq with heq
    rw [heq]
    exact hne
  · exact h m hm

/-- A connection is moved to other edges, and then its record changes. -/
theorem Joined.move (hne : edges ≠ []) :
    Joined ((κ.setEdges (.node n) edges).setConn (.node n) c) :=
  (h.setEdges hne).setConn (by simpa [Skeleton.setEdges] using hne) c

/-- A scope is created. -/
theorem Joined.alloc (hs : κ.Shape) (edges : List ScopeId) (name : ScopeName) :
    Joined (κ.alloc edges name) := by
  refine h.extend (fun n hn => ⟨rfl, alloc_edges_of_lt hn name⟩) fun n hn hc => ?_
  obtain ⟨m, hm, hlt⟩ := hs.conns hc
  cases hm
  omega

theorem Joined.allocConn (hs : κ.Shape) (hne : edges ≠ []) (name : ScopeName) (c : ConnectionScope) :
    Joined ((κ.alloc edges name).setConn (.node κ.next) c) :=
  (h.alloc hs edges name).setConn (by rw [alloc_edges_self]; exact hne) c

theorem Joined.setStream (id : ScopeId) (s : StreamScope) :
    Joined (κ.setStream id s) := h

end

end joined

section

variable (h : Joined σ.skel)
include h

theorem Joined.found (hs : σ.skel.Shape) {nm : ScopeName} (hfound : σ.Found τ x nm) :
    Joined τ.skel := by
  refine h.extend (fun n hn => ⟨congrFun hfound.conns _, hfound.edges n hn⟩) fun n hn hc => ?_
  rw [show τ.skel.conns = _ from hfound.conns] at hc
  obtain ⟨m, hm, hlt⟩ := hs.conns hc
  cases hm
  omega

theorem joined_newConn (hs : σ.skel.Shape) : Joined (σ.newConn c).skel := by
  simp only [newConn, skel_setConn, skel_newResourceScope]
  refine h.allocConn hs ?_ _ _
  unfold ConnectionScope.firstEdges
  split <;> exact cons_ne_nil _ _

theorem joined_openConnection (hs : σ.skel.Shape) (usefd : Bool)
    (endpoint : Endpoint) (ip : Option Addr) :
    Joined (σ.openConnection dir usefd endpoint ip).1.skel := by
  refine (openConnection_induction (I := fun σ => Joined σ.skel ∧ σ.skel.Shape) (fun _ _ h => h) ?_ ?_
    ⟨h, hs⟩ dir usefd endpoint ip).1 <;> intro σ c hc h
  · rw [skel_attempt]
    exact ⟨joined_newConn h.1 h.2, shape_newConn h.2 hc⟩
  · rw [skel_done, skel_attempt]
    exact ⟨joined_newConn h.1 h.2, shape_newConn h.2 hc⟩

theorem joined_openStream (hs : σ.Sound) :
    Joined (σ.openStream p dir).1.skel := by
  obtain ⟨hfound, -⟩ := found_getPeerScope hs.shape p
  have hgot := h.found hs.shape hfound
  have hnew : Joined (((σ.getPeerScope p).1.newStreamScope dir (σ.getPeerScope p).2).decRef
      (σ.getPeerScope p).2.scope).skel := by
    simp only [skel_decRef, newStreamScope, skel_setStream, skel_newResourceScope]
    exact (Joined.alloc hgot hfound.shape _ _).setStream _ _
  simp only [openStream]
  split
  · rename_i σ₁ heq
    rw [skel_of_acquire heq]; exact hnew
  · rename_i σ₁ err heq
    rw [skel_done, skel_of_acquire heq]; exact hnew

theorem joined_joinPeer (hs : σ.skel.Shape)
    (system transient : ScopeId) : Joined (σ.joinPeer (.node n) c p system transient).1.skel := by
  obtain ⟨hfound, -⟩ := found_getPeerScope hs p
  have hgot := h.found hs hfound
  simp only [joinPeer]
  split
  · rename_i σ₁ err heq
    rw [skel_decRef, skel_of_reserveForChild heq]; exact hgot
  · rename_i σ₁ heq
    simp only [skel_setConn, skel_setEdges, skel_decRef, skel_releaseForChild,
      skel_of_reserveForChild heq]
    exact hgot.move (cons_ne_nil _ _)

/-- A transfer that is not refused gives the connection new edges. -/
theorem joined_transfer
    (heq : (σ.setConn (.node n) c).transferAllowedToStandard (.node n) = (τ, none)) :
    Joined τ.skel := by
  have hleft : ((σ.setConn (.node n) c).leaveEdges (.node n)).skel =
      (σ.skel.setConn (.node n) c).setEdges (.node n) [] := by
    simp [leaveEdges, skel_setEdges, skel_releaseEdges, skel_setConn]
  simp only [transferAllowedToStandard] at heq
  split at heq
  · cases heq
  rename_i σ₁ heq₁
  split at heq
  · cases heq
  rename_i σ₂ heq₂
  obtain ⟨rfl, -⟩ := Prod.mk.inj heq
  simp only [skel_setEdges, skel_incRef, skel_of_reserveForChild heq₂,
    skel_of_reserveForChild heq₁, hleft]
  -- the edges are overwritten, so it does not matter that they were forgotten
  have hover : ((σ.skel.setConn (.node n) c).setEdges (.node n) []).setEdges (.node n)
      [system, transient] =
      (σ.skel.setEdges (.node n) [system, transient]).setConn (.node n) c := by
    simp [Skeleton.setEdges, Skeleton.setConn]
  rw [hover]
  exact h.move (cons_ne_nil _ _)

theorem joined_setPeer (hs : σ.Sound) {id : ScopeId} (hlive : (σ.scopes id).done = false)
    (hok : σ.TransferOk id p) : Joined (σ.setPeer id p).1.skel := by
  refine setPeer_induction (I := fun τ => Joined τ.skel) h (fun c _ _ hc _ _ _ => ?_) ?_
  · obtain ⟨n, k, rfl, -⟩ := hs.shape.conn hc
    exact joined_joinPeer h hs.shape _ _
  · intro c τ err hc hnone hal hallowed heq
    have herr := hok c hc hnone hal hallowed
    rw [heq] at herr
    obtain ⟨n, k, rfl, -⟩ := hs.shape.conn hc
    refine ⟨fun hne => absurd herr hne, fun hnoerr => ?_⟩
    subst hnoerr
    have hs₁ := (hs.balanced.transfer hc hnone hlive heq).1.toSound
    exact joined_joinPeer (joined_transfer h heq) hs₁.shape _ _

theorem joined_setSector (hs : σ.skel.Shape) (id : ScopeId) (t : Sector) :
    Joined (σ.setSector id t).1.skel := by
  obtain ⟨err, heq⟩ | ⟨n, s, rfl, he, heq⟩ := setSector_cases hs id t <;> rw [heq]
  · exact h
  simp only [enroll]
  split
  · rename_i σ₁ err heq
    rw [skel_decRef, skel_of_reserveForChild heq, skel_incRef]
    exact h.found hs (found_lookupSector hs t)
  · rename_i σ₁ heq
    obtain ⟨hfound, hfound'⟩ := found_second hs heq s.peer.peer
    have hgot := (h.found hs hfound).found hfound.shape hfound'
    split
    · rename_i σ₂ err heq'
      simp only [skel_decRef, skel_releaseForChild, skel_of_reserveForChild heq', skel_incRef]
      exact hgot
    · rename_i σ₂ heq'
      simp only [skel_setStream, skel_setEdges, skel_leaves, skel_of_reserveForChild heq', skel_incRef]
      exact (hgot.setEdges (by cases t <;> exact cons_ne_nil _ _)).setStream _ _

theorem joined_gc (hsafe : σ.Safe) (order : GcOrder) : Joined (σ.gc order).skel := by
  refine hsafe.gc_keeps (I := fun τ => Joined τ.skel) (fun {ρ ρ'} _ _ hcol hρ => ?_) h order
  cases hcol with
  | spared heq => rw [heq]; exact hρ
  | @closed S _ _ hscopes _ hconns _ =>
    intro n hn
    have hedges : ρ'.skel.edges n = ρ.skel.edges n :=
      (congrArg (fun g : Graph => (g (.node n)).edges) hscopes).trans (doneUnlocked_edges ρ S n)
    rw [hedges]
    exact hρ n (by rw [← show ρ'.skel.conns = ρ.skel.conns from hconns]; exact hn)

end

/-! ### Runs -/

/-- The calls of an accountable run: they are made on open scopes; memory is
reserved and released by connections and streams, which release at most what they
have; less than 2^63 bytes are reserved in all; and no transfer from the
allowlist is refused. -/
def Accountable (σ : Manager) : Op → Prop
  | .openConnection .. | .openConnectionNoIP .. | .openStream .. | .gc _ | .done (.node _) => True
  | .setPeer id p => (σ.scopes id).done = false ∧ σ.TransferOk id p
  | .setProtocol id _ | .setService id _ => (σ.scopes id).done = false
  | .reserveMemory (.node n) size prio => σ.Holder n ∧
      ((σ.acquire (.memory size prio) (.node n)).2 = none → σ.totalMemory + size.toInt < 2 ^ 63)
  | .releaseMemory (.node n) size => σ.Holder n ∧ size.toInt ≤ σ.use (.node n) .memory ∧
      σ.totalMemory - size.toInt < 2 ^ 63
  | .reserveMemory (.span ..) .. | .releaseMemory (.span ..) _ | .done (.span ..) => False
  | .beginSpan _ | .viewBegin _ | .viewEnd _ => False

instance (σ : Manager) (n : Nat) : Decidable (σ.Holder n) :=
  decidable_of_iff ((σ.scopes (.node n)).done = false ∧ σ.closable (.node n) = true)
    ⟨fun h => ⟨h.1, h.2⟩, fun h => ⟨h.isOpen, h.closable⟩⟩

instance (σ : Manager) (id : ScopeId) (p : PeerID) : Decidable (σ.TransferOk id p) := by
  unfold TransferOk
  infer_instance

instance (σ : Manager) : (op : Op) → Decidable (σ.Accountable op)
  | .openConnection .. | .openConnectionNoIP .. | .openStream .. | .gc _ | .done (.node _) =>
    isTrue trivial
  | .setPeer id p => inferInstanceAs (Decidable ((σ.scopes id).done = false ∧ σ.TransferOk id p))
  | .setProtocol id _ | .setService id _ => inferInstanceAs (Decidable ((σ.scopes id).done = false))
  | .reserveMemory (.node n) size prio => inferInstanceAs (Decidable (σ.Holder n ∧
      ((σ.acquire (.memory size prio) (.node n)).2 = none → σ.totalMemory + size.toInt < 2 ^ 63)))
  | .releaseMemory (.node n) size => inferInstanceAs (Decidable (σ.Holder n ∧
      size.toInt ≤ σ.use (.node n) .memory ∧ σ.totalMemory - size.toInt < 2 ^ 63))
  | .reserveMemory (.span ..) .. | .releaseMemory (.span ..) _ | .done (.span ..) => isFalse id
  | .beginSpan _ | .viewBegin _ | .viewEnd _ => isFalse id

theorem Accountable.setsOpen (h : σ.Accountable op) : σ.SetsOpen op := by
  cases op with
  | setPeer id p => exact h.1
  | setProtocol id proto | setService id svc => exact h
  | _ => trivial

/-- What holds between the calls of an accountable run. -/
structure Accounted (σ : Manager) : Prop where
  safe : σ.Safe
  ledgered : σ.Ledgered
  joined : Joined σ.skel

section

variable (h : σ.Accounted) (hok : σ.Accountable op)
include h hok

theorem Ledgered.step :
    (σ.step op).Ledgered := by
  have hl := h.ledgered
  have hsec := h.safe.secure
  cases op with
  | openConnection dir usefd endpoint => exact hl.openConnection hsec usefd endpoint _
  | openConnectionNoIP dir usefd endpoint => exact hl.openConnection hsec usefd endpoint none
  | openStream p dir => exact hl.openStream hsec
  | setPeer id p =>
    refine hl.setPeer hsec hok.1 (fun hc => ?_) hok.2
    obtain ⟨n, rfl, -⟩ := hl.shape.conns hc
    exact h.joined n hc
  | setProtocol id proto => exact hl.setSector hsec hok (.protocol proto)
  | setService id svc => exact hl.setSector hsec hok (.service svc)
  | reserveMemory id size prio =>
    cases id with
    | node n => exact hl.acquire hok.1 Prod.mk.eta.symm hok.2
    | span o k => exact hok.elim
  | releaseMemory id size =>
    cases id with
    | node n => exact hl.releaseMemory hsec hok.1 hok.2.1 hok.2.2
    | span o k => exact hok.elim
  | done id =>
    cases id with
    | node n =>
      simp only [step, exec]
      split
      · rename_i hn; exact hl.done hsec hn
      · exact hl
    | span o k => exact hok.elim
  | gc order => exact hl.gc h.safe order
  | beginSpan id | viewBegin target | viewEnd id => exact hok.elim

theorem joined_step :
    Joined (σ.step op).skel := by
  have hs := h.safe.toSound
  cases op with
  | openConnection dir usefd endpoint => exact joined_openConnection h.joined hs.shape usefd endpoint _
  | openConnectionNoIP dir usefd endpoint =>
    exact joined_openConnection h.joined hs.shape usefd endpoint none
  | openStream p dir => exact joined_openStream h.joined hs
  | setPeer id p => exact joined_setPeer h.joined hs hok.1 hok.2
  | setProtocol id proto => exact joined_setSector h.joined hs.shape id (.protocol proto)
  | setService id svc => exact joined_setSector h.joined hs.shape id (.service svc)
  | reserveMemory id size prio => exact skel_acquire σ _ id ▸ h.joined
  | releaseMemory id size => exact skel_releaseMemory σ size ▸ h.joined
  | done id =>
    simp only [step, exec]
    split
    · rw [skel_done]; exact h.joined
    · exact h.joined
  | gc order => exact joined_gc h.joined h.safe order
  | beginSpan id | viewBegin target | viewEnd id => exact hok.elim

theorem Accounted.step :
    (σ.step op).Accounted :=
  ⟨h.safe.step hok.setsOpen, .step h hok, joined_step h hok⟩

end

end calls

theorem accounted_newResourceManager (limits : Limiter) (cl : ConnLimiter) (al : Allowlist)
    (stickyProto : ProtocolID → Bool) (stickyPeer : PeerID → Bool) :
    (newResourceManager limits cl al stickyProto stickyPeer).Accounted where
  safe := ⟨balanced_newResourceManager limits cl al stickyProto stickyPeer,
    secure_newResourceManager limits cl al stickyProto stickyPeer⟩
  ledgered :=
    { toSound := (balanced_newResourceManager (B := fun _ => True) limits cl al stickyProto
        stickyPeer).toSound
      exact := fun {S} hS => by
        obtain ⟨nm, ⟨n, rfl, hlt, -⟩, -⟩ := hS
        have hlt : n < 4 := hlt
        have hcases : n = 0 ∨ n = 1 ∨ n = 2 ∨ n = 3 := by omega
        rw [holdings_unattached fun _ _ _ hc => by cases hc]
        rcases hcases with rfl | rfl | rfl | rfl <;> exact usage_zero { limit := _ }
      nonneg := fun hc => by cases hc
      bounded := by
        have hzero : (newResourceManager limits cl al stickyProto stickyPeer).totalMemory = 0 :=
          Ledger.total_eq_zero fun n _ => ownMemory_of_shared rfl
        rw [hzero]
        decide }
  joined n hn := absurd rfl hn

/-- The open connections and streams attached to `S`. -/
def attached (σ : Manager) (S : ScopeId) : Finset Nat :=
  (Finset.range σ.next).filter fun n => (σ.scopes (.node n)).done = false ∧
    σ.closable (.node n) = true ∧ S ∈ (σ.scopes (.node n)).edges

theorem holdings_eq_sum {σ : Manager} (h : σ.Sound) (S : ScopeId) :
    σ.holdings S = ∑ n ∈ σ.attached S, σ.use (.node n) := by
  simp only [holdings, attached, Finset.sum_filter]
  refine Finset.sum_congr rfl fun n hn => ?_
  have hnodup : (σ.scopes (.node n)).edges.Nodup :=
    h.shape.edges_nodup (mem_range.mp hn)
  simp only [held]
  by_cases hc : (σ.scopes (.node n)).done = false ∧ σ.closable (.node n) = true
  · by_cases hS : S ∈ (σ.scopes (.node n)).edges
    · rw [if_pos hc, if_pos ⟨hc.1, hc.2, hS⟩, count_eq_one_of_mem hnodup hS, one_nsmul]
    · rw [if_pos hc, if_neg fun hall => hS hall.2.2, count_eq_zero.mpr hS, zero_nsmul]
  · rw [if_neg hc, if_neg fun hall => hc ⟨hall.1, hall.2.1⟩]

end Manager

open Manager in
/-- In every state of an accountable run the counters of every shared scope (memory,
streams and connections in and out, descriptors) are the sums of those of the open
connections and streams attached to it. Once all of these are done, they are zero. -/
theorem accounting_exact (limits : Limiter) (cl : ConnLimiter) (al : Allowlist)
    (stickyProto : ProtocolID → Bool) (stickyPeer : PeerID → Bool) {σ : Manager}
    (h : Reach Manager.step Accountable (newResourceManager limits cl al stickyProto stickyPeer) σ) :
    (∀ S, σ.skel.SharedScope S → σ.use S = ∑ n ∈ σ.attached S, σ.use (.node n)) ∧
    ((∀ n, σ.closable (.node n) = true → (σ.scopes (.node n)).done = true) →
      ∀ S, σ.skel.SharedScope S → σ.use S = 0) := by
  have hacc : σ.Accounted :=
    Reach.invariant (accounted_newResourceManager limits cl al stickyProto stickyPeer)
      (fun τ op _ hok hτ => hτ.step hok) h
  have hexact := fun S hS => hacc.ledgered.exact (S := S) hS
  refine ⟨fun S hS => ?_, fun hdone S hS => ?_⟩
  · rw [hexact S hS, holdings_eq_sum hacc.ledgered.toSound]
  · rw [hexact S hS]
    refine holdings_unattached fun n _ hopen hc => ?_
    rw [hdone n hc] at hopen
    cases hopen

/-- A connection with a peer and 100 bytes, and a stream of that peer with a protocol. -/
def busyManager : Manager :=
  fourManager.run [.openConnectionNoIP .inbound true ⟨none⟩, .setPeer (.node 4) "a",
    .reserveMemory (.node 4) 100 255, .openStream "a" .inbound, .setProtocol (.node 6) "x"]

theorem busyManager_reach : Reach step Manager.Accountable fourManager busyManager :=
  .step (Op.setProtocol (.node 6) "x") (.step (Op.openStream "a" .inbound)
    (.step (Op.reserveMemory (.node 4) 100 255) (.step (Op.setPeer (.node 4) "a")
      (.step (Op.openConnectionNoIP .inbound true ⟨none⟩) .init (by decide +kernel))
      (by decide +kernel)) (by decide +kernel)) (by decide +kernel)) (by decide +kernel)

/-- The scope of the peer has the memory of the connection and counts both. -/
theorem accounting_exact_busy :
    (busyManager.attached (.node 5) = {4, 6} ∧ busyManager.use (.node 5) .memory = 100) ∧
    (∀ S, busyManager.skel.SharedScope S →
      busyManager.use S = ∑ n ∈ busyManager.attached S, busyManager.use (.node n)) ∧
    ((∀ n, busyManager.closable (.node n) = true → (busyManager.scopes (.node n)).done = true) →
      ∀ S, busyManager.skel.SharedScope S → busyManager.use S = 0) :=
  ⟨by decide +kernel, accounting_exact (.uniform fourLimit) .newConnLimiter {}
    (fun _ => false) (fun _ => false) busyManager_reach⟩

end Dep2p.Rcmgr
