import Dep2p.Rcmgr.RefCount

/- Garbage collection spares what is in use.

   `gc` closes the scopes of protocols and peers that nothing refers to, and then,
   without looking at them, the scopes a dead peer has inside services and
   protocols. The second is safe because a stream attached to such a scope is also
   attached to the scope its peer has in the table of peers, and that one is then
   referred to.

   What is proved:
     1. `secure_step`: an open scope is attached to open scopes, every table leads
        to open scopes, an open stream's peer is the one in the table of peers, and
        an open span of a shared scope has an open owner; every call keeps this
        when calls that move a scope are made on open ones.
     2. `gc_spares_used`: after `gc`, in whatever order it walks the tables, no
        open scope is attached to a closed one and no owner of an open span was
        closed. -/
namespace Dep2p.Rcmgr

open Lib Function List Skeleton Option

variable {x id S : ScopeId} {edges : List ScopeId} {p : PeerID} {s : StreamScope} {nm : ScopeName}
  {n : Nat} {κ : Skeleton} {c : ConnectionScope}

namespace Skeleton

/-- What is open, by the marks `m` of the scopes. -/
structure Secure (κ : Skeleton) (m : ScopeId → Bool × Nat) : Prop where
  permanent : ∀ S ∈ [system, transient, allowlistedSystem, allowlistedTransient], (m S).1 = false
  svc : ∀ {svc s}, κ.svc svc = some s → (m s.scope).1 = false
  proto : ∀ {proto s}, κ.proto proto = some s → (m s.scope).1 = false
  peer : ∀ {p s}, κ.peer p = some s → (m s.scope).1 = false
  subPeer : ∀ {owner p ps}, κ.peers owner p = some ps → (m ps).1 = false
  unique : ∀ {owner owner' p p' ps}, κ.peers owner p = some ps → κ.peers owner' p' = some ps →
    owner = owner' ∧ p = p'
  attached : ∀ {n e}, (m (.node n)).1 = false → e ∈ κ.edges n → (m e).1 = false
  owners : ∀ {x k}, (m (.span x k)).1 = false → κ.SharedScope x → (m x).1 = false
  hidden : ∀ {n}, (κ.name n).insidePeer ≠ none → (m (.node n)).2 = 0
  current : ∀ {n s}, κ.streams (.node n) = some s → (m (.node n)).1 = false →
    κ.peer s.peer.peer = some s.peer

namespace Secure

variable {κ : Skeleton} {m : ScopeId → Bool × Nat} {k : Nat}

/-- What was open stays open when another scope is opened. -/
theorem open_update (h : (m x).1 = false) :
    (update m id (false, k) x).1 = false := by
  rw [update_apply]
  split
  · rfl
  · exact h

section

variable (h : κ.Secure m)
include h

/-- A scope is created with open edges. -/
theorem alloc (hshape : κ.Shape) (hspans : ∀ k, (m (.span (.node κ.next) k)).1 = true)
    (hedges : ∀ e ∈ edges, (m e).1 = false) (name : ScopeName) :
    (κ.alloc edges name).Secure (update m (.node κ.next) (false, 0)) where
  permanent S hS := open_update (h.permanent S hS)
  svc hs := open_update (h.svc hs)
  proto hs := open_update (h.proto hs)
  peer hs := open_update (h.peer hs)
  subPeer hs := open_update (h.subPeer hs)
  unique := h.unique
  attached {n e} hn he := by
    refine open_update ?_
    simp only [Skeleton.alloc, update_apply] at hn he
    split at he
    · exact hedges e he
    · rename_i hne
      rw [if_neg (by simpa using hne)] at hn
      exact h.attached hn he
  owners {x k} hk hx := by
    rw [update_of_ne (by simp)] at hk
    obtain ⟨nm, ⟨n, rfl, hlt, hnm⟩, hshared⟩ := hx
    have hne : n ≠ κ.next := by
      rintro rfl
      exact absurd (hspans k) (by rw [hk]; simp)
    refine open_update (h.owners hk ⟨nm, ⟨n, rfl, ?_, ?_⟩, hshared⟩)
    · exact lt_of_le_of_ne (Nat.lt_succ_iff.mp hlt) hne
    · simpa only [Skeleton.alloc, update_apply, if_neg hne] using hnm
  hidden {n} hn := by
    simp only [Skeleton.alloc, update_apply] at hn ⊢
    split at hn
    · rename_i heq; rw [if_pos (by rw [heq])]
    · rename_i hne; rw [if_neg (by simpa using hne)]; exact h.hidden hn
  current {n s} hs hn := by
    have hne : n ≠ κ.next := by
      rintro rfl
      have hnone : κ.streams (.node κ.next) = none := hshape.fresh_streams
      rw [show (κ.alloc edges name).streams = κ.streams from rfl, hnone] at hs
      cases hs
    rw [update_of_ne (by simpa using hne)] at hn
    exact h.current hs hn

theorem enterService (svc : String) {s : Option ServiceScope}
    (hs : ∀ x, s = some x → (m x.scope).1 = false) : (κ.enterService svc s).Secure m :=
  { h with
    svc := fun {svc' x} hx => by
      simp only [Skeleton.enterService, update_apply] at hx
      split at hx
      · exact hs x hx
      · exact h.svc hx }

theorem enterProtocol (proto : ProtocolID) {s : Option ProtocolScope}
    (hs : ∀ x, s = some x → (m x.scope).1 = false) : (κ.enterProtocol proto s).Secure m :=
  { h with
    proto := fun {proto' x} hx => by
      simp only [Skeleton.enterProtocol, update_apply] at hx
      split at hx
      · exact hs x hx
      · exact h.proto hx }

/-- An entry of the table of peers changes; open streams of that peer must agree. -/
theorem enterPeer {s : Option PeerScope} (hs : ∀ x, s = some x → (m x.scope).1 = false)
    (hcur : ∀ n st, κ.streams (.node n) = some st → (m (.node n)).1 = false →
      st.peer.peer = p → s = some st.peer) :
    (κ.enterPeer p s).Secure m :=
  { h with
    peer := fun {p' x} hx => by
      simp only [Skeleton.enterPeer, update_apply] at hx
      split at hx
      · exact hs x hx
      · exact h.peer hx
    current := fun {n st} hst hn => by
      simp only [Skeleton.enterPeer, update_apply]
      split
      · rename_i heq; exact hcur n st hst hn heq
      · exact h.current hst hn }

/-- A new entry of a table of peers leads to an open scope that no other entry has. -/
theorem enterSubPeer {owner : ScopeId} {ps : Option ScopeId}
    (hps : ∀ x, ps = some x → (m x).1 = false ∧ ∀ o q, κ.peers o q ≠ some x) :
    (κ.enterSubPeer owner p ps).Secure m := by
  -- an entry is the new one or was there before
  have hcases : ∀ {o q x}, (κ.enterSubPeer owner p ps).peers o q = some x →
      (o = owner ∧ q = p ∧ ps = some x) ∨ κ.peers o q = some x := by
    intro o q x hx
    simp only [Skeleton.enterSubPeer, update_apply] at hx
    split at hx
    · rename_i ho
      subst ho
      rw [update_apply] at hx
      split at hx
      · rename_i hq; exact .inl ⟨rfl, hq, hx⟩
      · exact .inr hx
    · exact .inr hx
  refine { h with subPeer := fun {o q x} hx => ?_, unique := fun {o o' q q' x} hx hx' => ?_ }
  · rcases hcases hx with ⟨-, -, heq⟩ | hold
    · exact (hps x heq).1
    · exact h.subPeer hold
  · rcases hcases hx with ⟨ho, hq, heq⟩ | hold
    · rcases hcases hx' with ⟨ho', hq', -⟩ | hold'
      · exact ⟨ho.trans ho'.symm, hq.trans hq'.symm⟩
      · exact absurd hold' ((hps x heq).2 o' q')
    · rcases hcases hx' with ⟨-, -, heq'⟩ | hold'
      · exact absurd hold ((hps x heq').2 o q)
      · exact h.unique hold hold'

theorem setEdges (hedges : ∀ e ∈ edges, (m e).1 = false) :
    (κ.setEdges (.node n) edges).Secure m :=
  { h with
    attached := fun {n' e} hn he => by
      simp only [Skeleton.setEdges, update_apply] at he
      split at he
      · exact hedges e he
      · exact h.attached hn he }

theorem setConn : (κ.setConn id c).Secure m :=
  { h with }

theorem setStream (hs : (m id).1 = false → κ.peer s.peer.peer = some s.peer) :
    (κ.setStream id s).Secure m :=
  { h with
    current := fun {n st} hst hn => by
      simp only [Skeleton.setStream, update_apply] at hst
      split at hst
      · rename_i heq
        cases hst
        exact hs (heq ▸ hn)
      · exact h.current hst hn }

end

/-- Nothing uses the scope: it is in no table, no open scope is attached to it,
and none of its spans is open. -/
structure Free (κ : Skeleton) (m : ScopeId → Bool × Nat) (id : ScopeId) : Prop where
  permanent : id ∉ [system, transient, allowlistedSystem, allowlistedTransient]
  svc : ∀ {svc s}, κ.svc svc = some s → s.scope ≠ id
  proto : ∀ {proto s}, κ.proto proto = some s → s.scope ≠ id
  peer : ∀ {p s}, κ.peer p = some s → s.scope ≠ id
  subPeer : ∀ {owner p ps}, κ.peers owner p = some ps → ps ≠ id
  attached : ∀ {n}, (m (.node n)).1 = false → id ∉ κ.edges n
  owners : κ.SharedScope id → ∀ k, (m (.span id k)).1 = true

theorem open_close (hne : x ≠ id) (h : (m x).1 = false) :
    (update m id (true, k) x).1 = false := by
  rw [update_of_ne hne]; exact h

theorem open_of_close
    (h : (update m id (true, k) x).1 = false) : x ≠ id ∧ (m x).1 = false := by
  rw [update_apply] at h
  split at h
  · cases h
  · rename_i hne; exact ⟨hne, h⟩

/-- A scope that nothing uses is closed. -/
theorem close (h : κ.Secure m) (hfree : Free κ m id) :
    κ.Secure (update m id (true, (m id).2)) where
  permanent S hS := open_close (fun heq => hfree.permanent (heq ▸ hS)) (h.permanent S hS)
  svc hs := open_close (hfree.svc hs) (h.svc hs)
  proto hs := open_close (hfree.proto hs) (h.proto hs)
  peer hs := open_close (hfree.peer hs) (h.peer hs)
  subPeer hs := open_close (hfree.subPeer hs) (h.subPeer hs)
  unique := h.unique
  attached {n e} hn he := by
    obtain ⟨-, hn⟩ := open_of_close hn
    exact open_close (fun heq => hfree.attached hn (heq ▸ he)) (h.attached hn he)
  owners {x k} hk hx := by
    obtain ⟨-, hopen⟩ := open_of_close hk
    refine open_close ?_ (h.owners hopen hx)
    rintro rfl
    rw [hfree.owners hx k] at hopen
    cases hopen
  hidden {n} hn := by
    rw [update_apply]
    split
    · rename_i heq; rw [← heq]; exact h.hidden hn
    · exact h.hidden hn
  current hs hn := h.current hs (open_of_close hn).2

/-- A span is begun on an open scope that is not hidden. -/
theorem beginSpan (h : κ.Secure m) (hid : (m id).1 = false)
    (hhid : ∀ n, id = .node n → (κ.name n).insidePeer = none) :
    κ.Secure (update (update m id (false, k)) (.span id k) (false, 0)) where
  permanent S hS := open_update (open_update (h.permanent S hS))
  svc hs := open_update (open_update (h.svc hs))
  proto hs := open_update (open_update (h.proto hs))
  peer hs := open_update (open_update (h.peer hs))
  subPeer hs := open_update (open_update (h.subPeer hs))
  unique := h.unique
  attached {n e} hn he := by
    rw [update_of_ne (by simp)] at hn
    refine open_update (open_update (h.attached ?_ he))
    rw [update_apply] at hn
    split at hn
    · rename_i heq; rw [heq]; exact hid
    · exact hn
  owners {x j} hj hx := by
    refine open_update (open_update ?_)
    by_cases hxid : x = id
    · rw [hxid]; exact hid
    · refine h.owners (k := j) ?_ hx
      rw [update_of_ne (by simp [hxid]), update_apply] at hj
      split at hj
      · rename_i heq; rw [heq]; exact hid
      · exact hj
  hidden {n} hn := by
    rw [update_of_ne (by simp), update_of_ne]
    · exact h.hidden hn
    · intro heq; exact hn (hhid n heq.symm)
  current {n s} hs hn := by
    rw [update_of_ne (by simp)] at hn
    refine h.current hs ?_
    rw [update_apply] at hn
    split at hn
    · rename_i heq; rw [heq]; exact hid
    · exact hn

end Secure

theorem Shape.not_permanent (h : κ.Shape) (hid : κ.Named id nm) (h₁ : nm ≠ .system)
    (h₂ : nm ≠ .transient) (h₃ : nm ≠ .allowlistedSystem) (h₄ : nm ≠ .allowlistedTransient) :
    id ∉ [Rcmgr.system, Rcmgr.transient, Rcmgr.allowlistedSystem, Rcmgr.allowlistedTransient] := by
  simp only [mem_cons, not_mem_nil, or_false, not_or]
  exact ⟨hid.ne h.system h₁, hid.ne h.transient h₂, hid.ne h.allowlistedSystem h₃,
    hid.ne h.allowlistedTransient h₄⟩

/-- Connections, streams and spans are in no table and no scope is attached to them. -/
theorem Shape.free (h : κ.Shape) {m : ScopeId → Bool × Nat}
    (hborn : ∀ n, (m (.node n)).1 = false → n < κ.next) (hid : ¬ κ.SharedScope id) :
    Secure.Free κ m id where
  permanent := by
    simp only [mem_cons, not_mem_nil, or_false, not_or]
    refine ⟨?_, ?_, ?_, ?_⟩ <;> rintro rfl
    · exact hid ⟨_, h.system, trivial⟩
    · exact hid ⟨_, h.transient, trivial⟩
    · exact hid ⟨_, h.allowlistedSystem, trivial⟩
    · exact hid ⟨_, h.allowlistedTransient, trivial⟩
  svc hs := by rintro rfl; exact hid ⟨_, (h.tables.svc hs).2, trivial⟩
  proto hs := by rintro rfl; exact hid ⟨_, (h.tables.proto hs).2, trivial⟩
  peer hs := by rintro rfl; exact hid ⟨_, (h.tables.peer hs).2, trivial⟩
  subPeer hs := by
    rintro rfl
    rcases h.tables.subPeer hs with ⟨svc, -, hps⟩ | ⟨proto, -, hps⟩ <;> exact hid ⟨_, hps, trivial⟩
  attached hn he := hid (h.edge_shared (hborn _ hn) he)
  owners hshared := absurd hshared hid

end Skeleton

namespace Manager

/-! ## The calls of the manager -/

def Secure (σ : Manager) : Prop := σ.skel.Secure σ.marks

variable {σ : Manager}

section calls

variable {σ τ : Manager}

theorem Secure.congr (h : σ.Secure) (hskel : τ.skel = σ.skel) (hmarks : τ.marks = σ.marks) :
    τ.Secure := by
  unfold Secure
  rw [hskel, hmarks]
  exact h

theorem Quiet.secure (hq : σ.Quiet τ) (h : σ.Secure) : τ.Secure := h.congr hq.skel hq.marks

theorem Secure.incRef (h : σ.Secure) (id : ScopeId) : (σ.incRef id).Secure :=
  h.congr (skel_incRef σ) (marks_incRef σ)

theorem Secure.decRef (h : σ.Secure) (id : ScopeId) : (σ.decRef id).Secure :=
  h.congr (skel_decRef σ id) (marks_decRef σ)

theorem Births.lt_next (h : σ.Births) (hn : (σ.marks (.node n)).1 = false) :
    n < σ.next :=
  h.born_of_live hn

theorem Secure.newResourceScope (h : σ.Secure) (hs : σ.Sound) (limit : Limit)
    (hedges : ∀ e ∈ edges, (σ.marks e).1 = false) (name : ScopeName) :
    (σ.newResourceScope limit edges name).Secure := by
  unfold Secure
  rw [skel_newResourceScope, marks_newResourceScope]
  refine h.alloc hs.shape (fun k => ?_) hedges name
  -- a scope that does not exist has no spans
  have hnot : ¬ σ.Born (.span σ.fresh k) := by
    rintro ⟨hpos, hle⟩
    have hnone : (σ.scopes σ.fresh).spanID = 0 :=
      congrArg Prod.snd (hs.births σ.fresh (lt_irrefl σ.next))
    omega
  exact congrArg Prod.fst (hs.births _ hnot)

theorem Secure.permanent (h : σ.Secure) : (σ.marks system).1 = false ∧
    (σ.marks transient).1 = false ∧ (σ.marks allowlistedSystem).1 = false ∧
    (σ.marks allowlistedTransient).1 = false :=
  ⟨Skeleton.Secure.permanent h _ (by simp), Skeleton.Secure.permanent h _ (by simp),
    Skeleton.Secure.permanent h _ (by simp), Skeleton.Secure.permanent h _ (by simp)⟩

/-- A scope was looked up in a secure state: the state is still secure and the
scope is open. -/
structure OpenAt (τ : Manager) (x : ScopeId) : Prop where
  secure : τ.Secure
  isOpen : (τ.marks x).1 = false

theorem OpenAt.incRef (h : τ.OpenAt x) (id : ScopeId) : (τ.incRef id).OpenAt x :=
  ⟨h.secure.incRef id, marks_incRef τ ▸ h.isOpen⟩

theorem marks_fresh (σ : Manager) (limit : Limit) (edges : List ScopeId) (name : ScopeName) :
    ((σ.newResourceScope limit edges name).marks σ.fresh).1 = false := by
  rw [marks_newResourceScope, update_self]

section

variable (h : σ.Secure)
include h

theorem Secure.system_open : ∀ e ∈ [system], (σ.marks e).1 = false := by
  simpa using h.permanent.1

theorem Secure.lookupSector (hs : σ.Sound) (t : Sector) :
    (σ.lookupSector t).1.OpenAt (σ.lookupSector t).2 := by
  cases t with
  | protocol proto =>
    simp only [Manager.lookupSector, lookupProtocol]
    split
    · rename_i s hproto
      exact ⟨h, h.proto hproto⟩
    · have hnew := h.newResourceScope hs (σ.limits.getProtocolLimits proto) h.system_open
        (.protocol proto)
      have hopen := marks_fresh σ (σ.limits.getProtocolLimits proto) [system] (.protocol proto)
      exact ⟨hnew.enterProtocol proto fun x hx => by cases hx; exact hopen, hopen⟩
  | service svc =>
    simp only [Manager.lookupSector, lookupService]
    split
    · rename_i s hsvc
      exact ⟨h, h.svc hsvc⟩
    · have hnew := h.newResourceScope hs (σ.limits.getServiceLimits svc) h.system_open (.service svc)
      have hopen := marks_fresh σ (σ.limits.getServiceLimits svc) [system] (.service svc)
      exact ⟨hnew.enterService svc fun x hx => by cases hx; exact hopen, hopen⟩

/-- A new entry of the table of peers cannot contradict an open stream: the entry
of an open stream's peer is there already. -/
theorem Secure.lookupPeer (hs : σ.Sound) :
    (σ.lookupPeer p).1.OpenAt (σ.lookupPeer p).2.scope ∧
      (σ.lookupPeer p).1.peer p = some (σ.lookupPeer p).2 := by
  simp only [Manager.lookupPeer]
  split
  · rename_i s hpeer
    exact ⟨⟨h, h.peer hpeer⟩, hpeer⟩
  · rename_i hnone
    have hnew := h.newResourceScope hs (σ.limits.getPeerLimits p) h.system_open (.peer p)
    have hopen := marks_fresh σ (σ.limits.getPeerLimits p) [system] (.peer p)
    refine ⟨⟨hnew.enterPeer (fun x hx => by cases hx; exact hopen) ?_, hopen⟩, by simp [enterPeer]⟩
    intro n st hst hn hp
    have hcur : σ.peer st.peer.peer = some st.peer := hnew.current hst hn
    rw [hp, hnone] at hcur
    cases hcur

theorem Secure.lookupSubPeer (hs : σ.Sound) (owner : ScopeId) (limit : Limit) (name : ScopeName)
    (p : PeerID) :
    (σ.lookupSubPeer owner limit name p).1.OpenAt (σ.lookupSubPeer owner limit name p).2 := by
  simp only [Manager.lookupSubPeer]
  split
  · rename_i ps hps
    exact ⟨h, h.subPeer hps⟩
  · have hnew := h.newResourceScope hs limit (fun e he => absurd he not_mem_nil) name
    have hopen := marks_fresh σ limit [] name
    refine ⟨hnew.enterSubPeer fun x hx => ?_, hopen⟩
    obtain rfl : σ.fresh = x := some.inj hx
    refine ⟨hopen, fun o q hentry => ?_⟩
    -- the entries of a table are scopes that exist
    rcases hs.shape.tables.subPeer hentry with ⟨svc, -, hps⟩ | ⟨proto, -, hps⟩
    all_goals exact fresh_ne hps rfl

theorem Secure.getPeerScope (hs : σ.Sound) (p : PeerID) :
    (σ.getPeerScope p).1.OpenAt (σ.getPeerScope p).2.scope ∧
      (σ.getPeerScope p).1.peer p = some (σ.getPeerScope p).2 :=
  ⟨(h.lookupPeer hs).1.incRef _, (h.lookupPeer hs).2⟩

/-! ### Closing and opening -/

theorem Secure.doneUnlocked (hfree : Skeleton.Secure.Free σ.skel σ.marks id) :
    (σ.doneUnlocked id).Secure := by
  unfold Secure
  rw [skel_doneUnlocked, marks_doneUnlocked]
  exact h.close hfree

theorem Secure.done (hs : σ.Sound) (hid : ¬ σ.skel.SharedScope id) : (σ.done id).Secure := by
  have hfree : Skeleton.Secure.Free σ.skel σ.marks id :=
    hs.shape.free (fun _ hn => hs.births.lt_next hn) hid
  simp only [Manager.done, connDone]
  split
  · split
    · exact h
    · split
      · exact h.doneUnlocked hfree
      · exact doneUnlocked h hfree
  · exact h.doneUnlocked hfree

end

/-- A scope that is not named as a shared one is not shared. -/
theorem not_shared (h : κ.Named id nm) (hnm : ¬ nm.Shared) : ¬ κ.SharedScope id := by
  rintro ⟨nm', h', hshared⟩
  exact hnm (named_unique h h' ▸ hshared)

theorem Secure.newConn (h : σ.Secure) (hs : σ.Sound) :
    (σ.newConn c).Secure := by
  refine (newResourceScope h ⟨hs.shape, hs.births, hs.views⟩ _ ?_ _).setConn
  unfold ConnectionScope.firstEdges
  split
  · simpa using ⟨h.permanent.2.2.2, h.permanent.2.2.1⟩
  · simpa using ⟨h.permanent.2.1, h.permanent.1⟩

/-- The peer of a new stream is the one in the table. -/
theorem Secure.newStreamScope (h : σ.Secure) (hs : σ.Sound) (dir : Direction) {peer : PeerScope}
    (hpeer : σ.peer peer.peer = some peer) : (σ.newStreamScope dir peer).Secure :=
  (newResourceScope h ⟨hs.shape, hs.births, hs.views⟩ _
    (by simpa using ⟨h.peer hpeer, h.permanent.2.1, h.permanent.1⟩) _).setStream
      fun _ => hpeer

/-- What is known of every scope and nothing of the counts. -/
theorem Sound.balanced (h : σ.Sound) : σ.Balanced fun _ => False :=
  ⟨h, fun _ _ hB => hB.elim⟩

theorem named_newConn :
    (σ.newConn c).skel.Named σ.fresh (.conn (σ.connId + 1)) := by
  simp only [newConn, skel_setConn, skel_newResourceScope]
  exact named_alloc σ.skel c.firstEdges _

theorem named_newStreamScope (σ : Manager) (dir : Direction) (peer : PeerScope) :
    (σ.newStreamScope dir peer).skel.Named σ.fresh (.stream (σ.streamId + 1)) := by
  simp only [newStreamScope, skel_setStream, skel_newResourceScope]
  exact named_alloc σ.skel [peer.scope, transient, system] _

section

variable (h : σ.Secure)
include h

theorem Secure.attempt (hs : σ.Sound) : (σ.attempt c).Secure :=
  quiet_attempt.secure (h.newConn hs)

/-- A refused connection is closed, and it is not a shared scope. -/
theorem Secure.refused (hs : σ.Sound) (hc : c.peer = none) :
    ((σ.attempt c).done σ.fresh).Secure := by
  have hnm : (σ.attempt c).skel.Named σ.fresh (.conn (σ.connId + 1)) := by
    rw [skel_attempt]
    exact named_newConn
  exact (h.attempt hs).done (hs.balanced.attempt hc).toSound (not_shared hnm id)

theorem Secure.openConnection (hs : σ.Sound) (dir : Direction) (usefd : Bool) (endpoint : Endpoint)
    (ip : Option Addr) : (σ.openConnection dir usefd endpoint ip).1.Secure := by
  refine (openConnection_induction (I := fun σ => σ.Secure ∧ σ.Balanced fun _ => False) ?_ ?_ ?_
    ⟨h, hs.balanced⟩ dir usefd endpoint ip).1
  · exact fun _ cl h => ⟨h.1, h.2.setConnLimiter cl⟩
  · exact fun _ c hc h => ⟨h.1.attempt h.2.toSound, h.2.attempt hc⟩
  · exact fun _ c hc h => ⟨h.1.refused h.2.toSound hc, (h.2.attempt hc).done _⟩

theorem Secure.openStream (hs : σ.Sound) (p : PeerID) (dir : Direction) :
    (σ.openStream p dir).1.Secure := by
  have hgot := got_getPeerScope hs hs.balanced.drift rfl p
  obtain ⟨hopen, hentry⟩ := h.getPeerScope hs p
  have hp := (found_getPeerScope hs.shape p).2
  have hn : (σ.getPeerScope p).1.skel.Named (σ.getPeerScope p).2.scope
      (.peer (σ.getPeerScope p).2.peer) := by rw [hp]; exact hgot.found.named
  have hnew := (hopen.secure.newStreamScope hgot.sound dir (by rw [hp]; exact hentry)).decRef
    (σ.getPeerScope p).2.scope
  have hsnew := (looked_newStreamScope hgot.sound.shape dir hn).sound hgot.sound
    (shape_newStreamScope hgot.sound.shape dir hn)
  have hnm := named_newStreamScope (σ.getPeerScope p).1 dir (σ.getPeerScope p).2
  simp only [Manager.openStream]
  split
  · rename_i σ₁ heq
    exact (quiet_acquire heq).secure hnew
  · rename_i σ₁ err heq
    have hq := quiet_acquire heq
    have hskel : σ₁.skel = _ := hq.skel.trans (skel_decRef _ _)
    refine (hq.secure hnew).done ?_ (not_shared (hskel ▸ hnm) id)
    exact hq.sound (Balanced.of_decRef (B := fun _ => False) hsnew fun _ _ hB => hB.elim).toSound

/-! ### Migrating -/

theorem Secure.setEdges (hedges : ∀ e ∈ edges, (σ.marks e).1 = false) :
    (σ.setEdges (.node n) edges).Secure := by
  unfold Secure
  rw [skel_setEdges, marks_setEdges]
  exact .setEdges h hedges

theorem Secure.releaseForChild (id : ScopeId) (st : ScopeStat) : (σ.releaseForChild id st).Secure :=
  h.congr (skel_releaseForChild σ) (marks_releaseForChild σ)

end

/-- Scopes that exist are as open after a lookup as before. -/
theorem Looked.isOpen (h : σ.Looked τ) (hx : σ.skel.Named x nm)
    (hopen : (σ.marks x).1 = false) : (τ.marks x).1 = false := by
  rw [h.marks (fresh_ne hx).symm]; exact hopen

theorem Secure.joinPeer (h : σ.Secure) (hs : σ.Sound) (c : ConnectionScope)
    {system : ScopeId} (transient : ScopeId)
    (hsys : system ∈ [Rcmgr.system, Rcmgr.transient, allowlistedSystem, allowlistedTransient]) :
    (σ.joinPeer (.node n) c p system transient).1.Secure := by
  have hgot := (h.getPeerScope hs p).1
  simp only [Manager.joinPeer]
  split
  · rename_i σ₁ err heq
    exact ((quiet_reserveForChild heq).secure hgot.secure).decRef _
  · rename_i σ₁ heq
    have hq := quiet_reserveForChild heq
    have h₁ := hq.secure hgot.secure
    have hopen : ∀ e ∈ [(σ.getPeerScope p).2.scope, system], (σ₁.marks e).1 = false := by
      intro e he
      simp only [mem_cons, not_mem_nil, or_false] at he
      rcases he with rfl | rfl
      · rw [hq.marks]; exact hgot.isOpen
      · exact Skeleton.Secure.permanent h₁ _ hsys
    have hreleased := (h₁.releaseForChild transient ((σ.getPeerScope p).1.stat (.node n))).decRef
      transient
    refine (hreleased.setEdges fun e he => ?_).setConn
    rw [marks_decRef, marks_releaseForChild]
    exact hopen e he

theorem Secure.leaveEdges (h : σ.Secure) (n : Nat) : (σ.leaveEdges (.node n)).Secure := by
  have hreleased : (σ.releaseEdges (σ.scopes (.node n)).edges (σ.stat (.node n))).Secure :=
    h.congr (skel_releaseEdges σ) (marks_releaseEdges σ)
  exact hreleased.setEdges fun e he => absurd he not_mem_nil

theorem Secure.transfer (h : σ.Secure) (n : Nat) {err : Option RcErr}
    (heq : σ.transferAllowedToStandard (.node n) = (τ, err)) : τ.Secure := by
  have hleft := h.leaveEdges n
  simp only [transferAllowedToStandard] at heq
  split at heq
  · rename_i σ₁ e heq₁
    obtain ⟨rfl, rfl⟩ := Prod.mk.inj heq
    exact (quiet_reserveForChild heq₁).secure hleft
  · rename_i σ₁ heq₁
    have h₁ := ((quiet_reserveForChild heq₁).secure hleft).incRef system
    split at heq
    · rename_i σ₂ e heq₂
      obtain ⟨rfl, rfl⟩ := Prod.mk.inj heq
      exact (((quiet_reserveForChild heq₂).secure h₁).releaseForChild _ _).decRef _
    · rename_i σ₂ heq₂
      obtain ⟨rfl, rfl⟩ := Prod.mk.inj heq
      have h₂ := ((quiet_reserveForChild heq₂).secure h₁).incRef transient
      exact h₂.setEdges (by simpa using ⟨h₂.permanent.1, h₂.permanent.2.1⟩)

theorem Secure.setPeer (h : σ.Secure) (hs : σ.Sound)
    (hlive : (σ.scopes id).done = false) : (σ.setPeer id p).1.Secure := by
  refine setPeer_induction h (fun c sys tr hc hnone hsys _ => ?_) ?_
  · obtain ⟨n, k, rfl, -⟩ := hs.shape.conn hc
    exact h.joinPeer hs c _ (by rw [hsys]; split <;> simp)
  · intro c τ err hc hnone hal hallowed heq
    obtain ⟨n, k, rfl, -⟩ := hs.shape.conn hc
    have h₁ := transfer (σ := σ.setConn (.node n) _) (h.setConn) n heq
    have hs₁ := (hs.balanced.transfer hc hnone hlive heq).1.toSound
    exact ⟨fun _ => h₁, fun _ => h₁.joinPeer hs₁ _ _ (by simp)⟩

/-- Two scopes were looked up and charged: both are open, and so is what an open
stream was attached to; its peer still is the one in the table. -/
structure StagedOpen (τ : Manager) (s : StreamScope) (edges : List ScopeId) (a b : ScopeId) :
    Prop where
  secure : τ.Secure
  fst : (τ.marks a).1 = false
  snd : (τ.marks b).1 = false
  peer : τ.peer s.peer.peer = some s.peer
  edges : ∀ e ∈ edges, (τ.marks e).1 = false

theorem stagedOpen {σ₀ σ₁ σ₂ : Manager} {a b : ScopeId} {nm' : ScopeName}
    (hstream : σ.streams (.node n) = some s) (hlive : (σ.marks (.node n)).1 = false)
    (hn : n < σ.next) (hfound : σ.Found σ₀ a nm) (hlook : σ.Looked σ₀) (hopen : σ₀.OpenAt a)
    (hq : (σ₀.incRef a).Quiet σ₁) (hfound' : σ₁.Found σ₂ b nm') (hlook' : σ₁.Looked σ₂)
    (hopen' : σ₂.OpenAt b) (hq' : (σ₂.incRef b).Quiet τ) : StagedOpen τ s (σ.skel.edges n) a b := by
  have hskel₁ : σ₁.skel = σ₀.skel := hq.skel.trans (skel_incRef _)
  have hmarks₁ : σ₁.marks = σ₀.marks := hq.marks.trans (marks_incRef _)
  have hskel : τ.skel = σ₂.skel := hq'.skel.trans (skel_incRef _)
  have hmarks : τ.marks = σ₂.marks := hq'.marks.trans (marks_incRef _)
  have hsecure : τ.Secure := hopen'.secure.congr hskel hmarks
  have hle : σ.next ≤ σ₁.next := hlook.next_le.trans_eq (congrArg Skeleton.next hskel₁).symm
  -- the stream is open in the last state too, and attached as before
  have hstream' : τ.skel.streams (.node n) = some s := by
    rw [hskel]
    show σ₂.streams (.node n) = some s
    rw [hfound'.streams, show σ₁.streams = σ₀.streams from congrArg Skeleton.streams hskel₁,
      hfound.streams]
    exact hstream
  have hedges' : τ.skel.edges n = σ.skel.edges n := by
    rw [hskel, hfound'.edges n (lt_of_lt_of_le hn hle), hskel₁, hfound.edges n hn]
  have hlive' : (τ.marks (.node n)).1 = false := by
    have hne : ∀ {m : Manager}, σ.next ≤ m.next → .node n ≠ m.fresh := by
      intro m hle heq
      injection heq with heq
      omega
    rw [hmarks, hlook'.marks (hne hle), hmarks₁, hlook.marks (hne (le_refl _))]
    exact hlive
  refine ⟨hsecure, ?_, ?_, hsecure.current hstream' hlive', fun e he => ?_⟩
  · rw [hmarks]
    refine hlook'.isOpen (hskel₁ ▸ hfound.named) ?_
    rw [hmarks₁]; exact hopen.isOpen
  · rw [hmarks]; exact hopen'.isOpen
  · exact hsecure.attached hlive' (hedges' ▸ he)

theorem Secure.setStream (h : σ.Secure)
    (hs : σ.peer s.peer.peer = some s.peer) : (σ.setStream id s).Secure :=
  Skeleton.Secure.setStream h fun _ => hs

theorem Secure.leaves (h : σ.Secure) (t : Sector) (st : ScopeStat) :
    (t.leaves.foldl (fun σ x => (σ.releaseForChild x st).decRef x) σ).Secure := by
  cases t with
  | protocol proto => exact (h.releaseForChild transient st).decRef transient
  | service svc => exact h

theorem Secure.setSector (h : σ.Secure) (hs : σ.Sound)
    (hlive : (σ.scopes id).done = false) (t : Sector) : (σ.setSector id t).1.Secure := by
  obtain ⟨err, heq⟩ | ⟨n, s, rfl, he, heq⟩ := setSector_cases hs.shape id t <;> rw [heq]
  · exact h
  have hopen := h.lookupSector hs t
  have hgot := got_lookupSector hs hs.balanced.drift rfl t
  simp only [enroll]
  split
  · rename_i σ₁ err heq
    exact ((quiet_reserveForChild heq).secure (hopen.secure.incRef _)).decRef _
  · rename_i σ₁ heq
    have hq := quiet_reserveForChild heq
    have hs₁ := hq.sound hgot.sound
    have hopen' := (hq.secure (hopen.secure.incRef _)).lookupSubPeer hs₁ (σ.lookupSector t).2
      (t.peerLimits σ₁.limits) (t.peerName s.peer.peer) s.peer.peer
    split
    · rename_i σ₂ err heq'
      have h₂ := (quiet_reserveForChild heq').secure (hopen'.secure.incRef _)
      exact ((h₂.releaseForChild _ _).decRef _).decRef _
    · rename_i σ₂ heq'
      have hst := stagedOpen he.stream hlive he.lt (found_lookupSector hs.shape t)
        (looked_lookupSector hs.shape t) hopen hq (found_second hs.shape heq s.peer.peer).2
        (looked_lookupSubPeer _ _ _ _) hopen' (quiet_reserveForChild heq')
      refine ((hst.secure.leaves t _).setEdges fun e hmem => ?_).setStream ?_
      · -- a new edge is one of the two scopes of the sector or an old edge
        have hmem' := (he.perm _ _).subset (mem_append_right t.leaves hmem)
        have hmarks : ∀ st, (t.leaves.foldl (fun σ x => (σ.releaseForChild x st).decRef x) σ₂).marks =
            σ₂.marks := fun st => by cases t <;> simp [Sector.leaves]
        rw [hmarks]
        rcases mem_cons.mp hmem' with rfl | hmem'
        · exact hst.fst
        rcases mem_cons.mp hmem' with rfl | hmem'
        · exact hst.snd
        · exact hst.edges e hmem'
      · cases t <;> exact hst.peer

/-! ### Collecting -/

/-- Nothing uses a scope that `gc` finds unused, when its count is not behind the
references held. -/
theorem unused_of_gap (hb : σ.Births) (hgap : 0 ≤ σ.gap S)
    (hlive : (σ.scopes S).done = false) (hunused : (σ.scopes S).isUnused = true) :
    (∀ n, (σ.marks (.node n)).1 = false → S ∉ σ.skel.edges n) ∧
      ∀ k, (σ.marks (.span S k)).1 = true := by
  have href : (σ.scopes S).refCnt ≤ 0 := by
    by_contra hpos
    simp only [ResourceScope.isUnused, hlive, Bool.false_eq_true, if_false] at hunused
    rw [if_pos (by omega)] at hunused
    cases hunused
  have hedge : ∀ n, n < σ.next → 0 ≤ σ.edgeRefs S n := by
    intro n _
    simp only [edgeRefs]
    split <;> omega
  have hspan : ∀ k, k < (σ.scopes S).spanID → 0 ≤ σ.spanRefs S k := by
    intro k _
    simp only [spanRefs]
    split <;> omega
  have hedges := Ledger.total_nonneg hedge
  have hspans := Ledger.total_nonneg hspan
  have hpins : 0 ≤ pins S := by unfold pins; split <;> omega
  simp only [gap, due] at hgap
  constructor
  · intro n hn hmem
    have hle := Ledger.le_total (hb.lt_next hn) hedge
    have hcount : 0 < (σ.scopes (.node n)).edges.count S := count_pos_iff.mpr hmem
    have hn : (σ.scopes (.node n)).done = false := hn
    simp only [edgeRefs, hn] at hle
    simp only [Bool.false_eq_true, if_false] at hle
    omega
  · intro k
    by_contra hk
    have hk : (σ.scopes (.span S k)).done = false := by simpa [marks] using hk
    obtain ⟨j, rfl, hj⟩ := hb.span_live hk
    have hle := Ledger.le_total hj hspan
    simp only [spanRefs, hk, Bool.false_eq_true, if_false] at hle
    omega

/-- The name of the scope an entry leads to. -/
def Slot.Names : Slot → ScopeName → Prop
  | .protocol proto, nm => nm = .protocol proto
  | .peer p, nm => nm = .peer p
  | .inside _ p, nm => nm.insidePeer = some p

variable {slot : Slot}

theorem entry_named (h : σ.skel.Shape) (hS : σ.entry slot = some S) :
    ∃ nm, σ.skel.Named S nm ∧ slot.Names nm := by
  cases slot with
  | protocol proto =>
    obtain ⟨s, hs, rfl⟩ := map_eq_some_iff.mp hS
    exact ⟨_, (h.tables.proto hs).2, rfl⟩
  | peer p =>
    obtain ⟨s, hs, rfl⟩ := map_eq_some_iff.mp hS
    exact ⟨_, (h.tables.peer hs).2, rfl⟩
  | inside owner p =>
    rcases h.tables.subPeer hS with ⟨svc, -, hn⟩ | ⟨proto, -, hn⟩ <;> exact ⟨_, hn, rfl⟩

theorem Slot.Names.shared (h : slot.Names nm) : nm.Shared := by
  cases slot with
  | protocol proto | peer p => cases h; exact trivial
  | inside owner p => cases nm <;> first | exact trivial | cases h

variable {slot' : Slot} {op : Op}

/-- Two entries never lead to one scope. -/
theorem Secure.entry_unique (h : σ.Secure) (hs : σ.skel.Shape)
    (hS : σ.entry slot = some S) (hS' : σ.entry slot' = some S) : slot' = slot := by
  obtain ⟨nm, hnm, hnames⟩ := entry_named hs hS
  obtain ⟨nm', hnm', hnames'⟩ := entry_named hs hS'
  rw [named_unique hnm' hnm] at hnames'
  cases slot <;> cases slot' <;> simp only [Slot.Names] at hnames hnames'
  case inside.inside =>
    obtain ⟨ho, hp⟩ := h.unique hS' hS
    rw [ho, hp]
  case protocol.protocol | peer.peer => subst hnames; cases hnames'; rfl
  case inside.protocol | inside.peer => subst hnames'; cases hnames
  all_goals subst hnames; cases hnames'

/-- The entries that are left are the others, as they were. -/
theorem entry_vacate (hx : (σ.vacate slot).entry slot' = some x) :
    slot' ≠ slot ∧ σ.entry slot' = some x := by
  constructor
  · rintro rfl
    cases slot' <;> simp [vacate, entry, enterProtocol, enterPeer, enterSubPeer] at hx
  · cases slot <;> cases slot'
    case protocol.protocol | peer.peer =>
      simp only [vacate, entry, enterProtocol, enterPeer, update_apply] at hx ⊢
      split at hx
      · cases hx
      · exact hx
    case inside.inside owner p owner' p' =>
      simp only [vacate, entry, enterSubPeer, update_apply] at hx ⊢
      split at hx
      · rename_i ho
        rw [update_apply] at hx
        split at hx
        · cases hx
        · rw [ho]; exact hx
      · exact hx
    all_goals exact hx

/-- A stream attached to a scope of its peer inside a service or protocol is open
only while the peer is in the table. -/
theorem Secure.inside_unattached (h : σ.Secure) (hs : σ.Sound)
    (hgone : σ.peer p = none) {ps : ScopeId} (hnm : σ.skel.Named ps nm)
    (hinside : nm.insidePeer = some p) (hn : (σ.marks (.node n)).1 = false) :
    ps ∉ σ.skel.edges n := by
  intro he
  obtain ⟨nm', hnm', -, hstream⟩ := hs.shape.edge_named (hs.births.lt_next hn) he
  rw [named_unique hnm' hnm] at hstream
  obtain ⟨s, hst, hsp⟩ := hstream p hinside
  have hcur : σ.peer s.peer.peer = some s.peer := h.current hst hn
  rw [hsp, hgone] at hcur
  cases hcur

theorem Secure.beginSpan (h : σ.Secure) (hid : σ.handed id = true) :
    Secure { σ with scopes := (σ.scopes.beginSpan id).1 } := by
  cases hdone : (σ.scopes id).done with
  | true => rw [beginSpan_of_done hdone]; exact h
  | false =>
    have hmarks : { σ with scopes := (σ.scopes.beginSpan id).1 }.marks =
        update (update σ.marks id (false, (σ.scopes id).spanID + 1))
          (.span id ((σ.scopes id).spanID + 1)) (false, 0) := by
      funext x
      simp only [marks, beginSpan_scopes hdone, update_apply]
      split
      · rfl
      · split
        · simp [hdone]
        · rfl
    unfold Secure
    rw [skel_beginSpan, hmarks]
    refine .beginSpan h hdone ?_
    rintro n rfl
    exact isNone_iff_eq_none.mp hid

/-! ## Runs -/

/-- The scopes whose counts stay exact whatever transfers were refused. -/
def Counted (S : ScopeId) : Prop := S ≠ system ∧ S ≠ transient

/-- Counts are exact and what is used is open. -/
structure Safe (σ : Manager) : Prop extends Balanced Counted σ where
  secure : σ.Secure

section

variable (h : σ.Safe)
include h

theorem Safe.gap_nonneg (hS : σ.skel.Named S nm) (h₁ : nm ≠ .system) (h₂ : nm ≠ .transient) :
    0 ≤ σ.gap S := by
  have hcreated : σ.skel.Created S := by
    obtain ⟨n, hid, hlt, -⟩ := hS
    exact ⟨n, hid, hlt⟩
  exact (h.gap_zero hcreated ⟨hS.ne h.shape.system h₁, hS.ne h.shape.transient h₂⟩).ge

/-- No open scope is attached to the scope of an idle entry, and it has no open
span. A scope inside a service or protocol is closed unseen: a stream attached to
it would be open with a peer that is not in the table, and nobody was handed it. -/
theorem Safe.idle_free (hS : σ.entry slot = some S) (hidle : σ.Idle S slot) :
    (∀ n, (σ.marks (.node n)).1 = false → S ∉ σ.skel.edges n) ∧
      ∀ k, (σ.marks (.span S k)).1 = true := by
  obtain ⟨nm, hnm, hnames⟩ := entry_named h.shape hS
  cases slot with
  | protocol proto =>
    obtain ⟨s, hs, rfl⟩ := map_eq_some_iff.mp hS
    cases hnames
    exact unused_of_gap h.births (h.gap_nonneg hnm nofun nofun)
      (h.secure.proto hs) hidle
  | peer p =>
    obtain ⟨s, hs, rfl⟩ := map_eq_some_iff.mp hS
    cases hnames
    exact unused_of_gap h.births (h.gap_nonneg hnm nofun nofun)
      (h.secure.peer hs) hidle
  | inside owner p =>
    refine ⟨fun n hn => h.secure.inside_unattached h.toSound hidle hnm hnames hn, fun k => ?_⟩
    obtain ⟨n, rfl, -, hname⟩ := hnm
    have hnone : (σ.marks (.node n)).2 = 0 :=
      h.secure.hidden (by rw [hname, show nm.insidePeer = some p from hnames]; simp)
    have hborn : ¬ σ.Born (.span (.node n) k) := by
      rintro ⟨hpos, hle⟩
      simp only [marks] at hnone
      omega
    exact congrArg Prod.fst (h.births _ hborn)

/-- A stream holds the scope of its peer, so no open stream is left with a peer
whose scope is unused. -/
theorem Safe.left (hS : σ.entry slot = some S)
    (hedges : ∀ n, (σ.marks (.node n)).1 = false → S ∉ σ.skel.edges n) :
    (σ.vacate slot).Secure := by
  cases slot with
  | protocol proto => exact h.secure.enterProtocol proto fun x hx => by cases hx
  | inside owner p => exact h.secure.enterSubPeer fun x hx => by cases hx
  | peer p =>
    obtain ⟨s, hs, rfl⟩ := map_eq_some_iff.mp hS
    refine h.secure.enterPeer (fun x hx => by cases hx) ?_
    intro n st hst hn hstp
    -- the stream's peer is the one that is unused, and the stream is attached to it
    have hcur : σ.peer st.peer.peer = some st.peer := h.secure.current hst hn
    rw [hstp] at hcur
    obtain rfl : s = st.peer := some.inj (hs.symm.trans hcur)
    obtain ⟨m, k, hm, -, -, -, -, hedge⟩ := h.shape.stream hst
    injection hm with hm
    subst hm
    exact absurd hedge.peer_mem (hedges n hn)

theorem Safe.vacate (hS : σ.entry slot = some S) (hidle : σ.Idle S slot) :
    ((σ.doneUnlocked S).vacate slot).Safe := by
  obtain ⟨nm, hnm, hnames⟩ := entry_named h.shape hS
  obtain ⟨hedges, hspans⟩ := h.idle_free hS hidle
  have hne : ∀ nm', ¬ slot.Names nm' → nm ≠ nm' := fun _ hnot heq => hnot (heq ▸ hnames)
  -- no entry that is left leads to the scope
  have hother : ∀ slot' {x}, (σ.vacate slot).entry slot' = some x → x ≠ S := by
    rintro slot' x hx rfl
    obtain ⟨hslot, hold⟩ := entry_vacate hx
    exact hslot (h.secure.entry_unique h.shape hS hold)
  have hfree : Skeleton.Secure.Free (σ.vacate slot).skel (σ.vacate slot).marks S :=
    { permanent := h.shape.not_permanent hnm (hne _ (by cases slot <;> nofun))
        (hne _ (by cases slot <;> nofun)) (hne _ (by cases slot <;> nofun))
        (hne _ (by cases slot <;> nofun))
      svc := fun {svc s} hx => by
        have hold : σ.skel.svc svc = some s := by cases slot <;> exact hx
        exact ((h.shape.tables.svc hold).2.ne hnm (hne _ (by cases slot <;> nofun)).symm)
      proto := fun {proto s} hx => hother (.protocol proto) (congrArg (Option.map _) hx)
      peer := fun {p s} hx => hother (.peer p) (congrArg (Option.map _) hx)
      subPeer := fun {owner p ps} hx => hother (.inside owner p) hx
      attached := fun {n} hn => by cases slot <;> exact hedges n hn
      owners := fun _ k => by cases slot <;> exact hspans k }
  have hsecure := (h.left hS hedges).doneUnlocked hfree
  exact ⟨h.toBalanced.vacate slot, by cases slot <;> exact hsecure⟩

theorem Safe.gc (order : GcOrder) : (σ.gc order).Safe :=
  gc_induction (fun _ _ _ hτ hS hidle => hτ.vacate hS hidle) h order

/-- One step of a collection: nothing, or a shared scope to which no open scope
is attached is closed and leaves its table. -/
inductive Collected (σ τ : Manager) : Prop where
  | spared : τ = σ → Collected σ τ
  | closed {S : ScopeId} : σ.skel.SharedScope S → (∀ n, (σ.marks (.node n)).1 = false →
      S ∉ σ.skel.edges n) → τ.scopes = (σ.doneUnlocked S).scopes → τ.next = σ.next →
      τ.conns = σ.conns → τ.streams = σ.streams → Collected σ τ

theorem Safe.collected (hS : σ.entry slot = some S) (hidle : σ.Idle S slot) :
    σ.Collected ((σ.doneUnlocked S).vacate slot) := by
  obtain ⟨nm, hnm, hnames⟩ := entry_named h.shape hS
  have hfree := (h.idle_free hS hidle).1
  cases slot <;> exact .closed ⟨nm, hnm, hnames.shared⟩ hfree rfl rfl rfl rfl

end

/-- What a step of a collection keeps, a collection keeps. -/
theorem Safe.gc_keeps {I : Manager → Prop}
    (hI : ∀ {σ τ : Manager}, σ.Safe → τ.Safe → σ.Collected τ → I σ → I τ) (h : σ.Safe) (hσ : I σ)
    (order : GcOrder) : I (σ.gc order) := by
  refine (gc_induction (I := fun τ => τ.Safe ∧ I τ) (fun τ slot S hτ hS hidle => ?_) ⟨h, hσ⟩ order).2
  have hsafe := hτ.1.vacate hS hidle
  exact ⟨hsafe, hI hτ.1 hsafe (hτ.1.collected hS hidle) hτ.2⟩

theorem Secure.viewBegin (h : σ.Secure) (hs : σ.Sound) (target : ViewTarget) :
    (σ.viewBegin target).Secure := by
  cases target with
  | service svc => exact ((h.lookupSector hs (.service svc)).incRef _).secure
  | protocol proto => exact ((h.lookupSector hs (.protocol proto)).incRef _).secure
  | peer p => exact (h.getPeerScope hs p).1.secure

theorem Secure.viewEnd (h : σ.Secure) : (σ.viewEnd id).Secure := by
  simp only [Manager.viewEnd]
  split
  · exact h.decRef id
  · exact h

/-- Connections, streams and spans are what `Done` is a method of. -/
theorem not_shared_of_closable (hs : σ.Sound) (hid : σ.closable id = true) :
    ¬ σ.skel.SharedScope id := by
  cases id with
  | span o k =>
    rintro ⟨nm, ⟨n, hn, -⟩, -⟩
    cases hn
  | node n =>
    simp only [closable, Bool.or_eq_true, isSome_iff_exists] at hid
    rcases hid with ⟨c, hc⟩ | ⟨s, hst⟩
    · obtain ⟨m, k, hm, hlt, -, hnm, -⟩ := hs.shape.conn hc
      exact not_shared ⟨m, hm, hlt, hnm⟩ id
    · obtain ⟨m, k, hm, hlt, -, hnm, -⟩ := hs.shape.stream hst
      exact not_shared ⟨m, hm, hlt, hnm⟩ id

theorem secure_step (h : σ.Safe) (hopen : σ.SetsOpen op) : (σ.step op).Secure := by
  have hs := h.toSound
  cases op with
  | openConnection dir usefd endpoint => exact h.secure.openConnection hs dir usefd endpoint _
  | openConnectionNoIP dir usefd endpoint => exact h.secure.openConnection hs dir usefd endpoint none
  | openStream p dir => exact h.secure.openStream hs p dir
  | setPeer id p => exact h.secure.setPeer hs hopen
  | setProtocol id proto => exact h.secure.setSector hs hopen (.protocol proto)
  | setService id svc => exact h.secure.setSector hs hopen (.service svc)
  | beginSpan id =>
    simp only [step, exec]
    split
    · rename_i hid; exact h.secure.beginSpan hid
    · exact h.secure
  | reserveMemory id size prio => exact (quiet_acquire (Prod.mk.eta).symm).secure h.secure
  | releaseMemory id size => exact (quiet_releaseMemory size).secure h.secure
  | done id =>
    simp only [step, exec]
    split
    · rename_i hid; exact h.secure.done hs (not_shared_of_closable hs hid)
    · exact h.secure
  | viewBegin target => exact h.secure.viewBegin hs target
  | viewEnd id => exact h.secure.viewEnd
  | gc order => exact (h.gc order).secure

theorem Safe.step (h : σ.Safe) (hopen : σ.SetsOpen op) : (σ.step op).Safe :=
  ⟨h.toBalanced.step hopen (.inr fun _ hB => hB), secure_step h hopen⟩

end calls

theorem secure_newResourceManager (limits : Limiter) (cl : ConnLimiter) (al : Allowlist)
    (stickyProto : ProtocolID → Bool) (stickyPeer : PeerID → Bool) :
    (newResourceManager limits cl al stickyProto stickyPeer).Secure where
  permanent S hS := by
    simp only [mem_cons, not_mem_nil, or_false] at hS
    rcases hS with rfl | rfl | rfl | rfl <;> rfl
  svc hs := by cases hs
  proto hs := by cases hs
  peer hs := by cases hs
  subPeer hs := by cases hs
  unique hs := by cases hs
  attached {n e} hn he := by
    have hlt : n < 4 := (births_newResourceManager limits cl al stickyProto stickyPeer).lt_next hn
    have hcases : n = 0 ∨ n = 1 ∨ n = 2 ∨ n = 3 := by omega
    rcases hcases with rfl | rfl | rfl | rfl
    · exact absurd he not_mem_nil
    · obtain rfl := mem_singleton.mp he; rfl
    · exact absurd he not_mem_nil
    · obtain rfl := mem_singleton.mp he; rfl
  owners {x k} hk _ := by cases hk
  hidden {n} _ := by
    match n with
    | 0 | 1 | 2 | 3 => rfl
    | n + 4 => rfl
  current hs := by cases hs

theorem closed_by_doneUnlocked (hx : ((σ.doneUnlocked id).scopes x).done = true) :
    x = id ∨ (σ.scopes x).done = true := by
  have hmarks := congrArg Prod.fst (congrFun (marks_doneUnlocked σ id) x)
  rw [update_apply] at hmarks
  split at hmarks
  · rename_i heq; exact .inl heq
  · exact .inr (hmarks.symm.trans hx)

/-- `gc` closes shared scopes only. -/
theorem gc_closes_shared (h : σ.skel.Shape) (order : GcOrder) (hx : (σ.scopes x).done = false)
    (hclosed : ((σ.gc order).scopes x).done = true) : (σ.gc order).skel.SharedScope x := by
  suffices hinv : (σ.gc order).skel.Shape ∧
      (((σ.gc order).scopes x).done = true → (σ.gc order).skel.SharedScope x) from hinv.2 hclosed
  refine gc_induction (I := fun τ => τ.skel.Shape ∧ ((τ.scopes x).done = true → τ.skel.SharedScope x))
    (fun τ slot S hτ hS _ => ⟨shape_vacate hτ.1 S slot, fun hdone => ?_⟩)
    ⟨h, fun hdone => by rw [hx] at hdone; cases hdone⟩ order
  have hdone : ((τ.doneUnlocked S).scopes x).done = true := by cases slot <;> exact hdone
  have hshared : (τ.doneUnlocked S).skel.SharedScope x := by
    rw [skel_doneUnlocked]
    rcases closed_by_doneUnlocked hdone with rfl | hdone
    · obtain ⟨nm, hnm, hnames⟩ := entry_named hτ.1 hS
      exact ⟨nm, hnm, hnames.shared⟩
    · exact hτ.2 hdone
  cases slot <;> exact hshared

end Manager

open Manager in
/-- After `gc`, in any state a run can reach whose calls move only open scopes,
and in whatever order `gc` walks the tables: every open connection and stream is
attached to open scopes only, and `gc` closed no owner of an open span. -/
theorem gc_spares_used (limits : Limiter) (cl : ConnLimiter) (al : Allowlist)
    (stickyProto : ProtocolID → Bool) (stickyPeer : PeerID → Bool) {σ : Manager}
    (h : Reach Manager.step SetsOpen (newResourceManager limits cl al stickyProto stickyPeer) σ)
    (order : GcOrder) :
    (∀ n, ((σ.gc order).scopes (.node n)).done = false →
      ∀ e ∈ ((σ.gc order).scopes (.node n)).edges, ((σ.gc order).scopes e).done = false) ∧
    ∀ x k, ((σ.gc order).scopes (.span x k)).done = false → (σ.scopes x).done = false →
      ((σ.gc order).scopes x).done = false := by
  have hsafe : σ.Safe := by
    refine Reach.invariant ?_ (fun τ op _ hop hτ => hτ.step hop) h
    exact ⟨balanced_newResourceManager limits cl al stickyProto stickyPeer,
      secure_newResourceManager limits cl al stickyProto stickyPeer⟩
  have hgc := hsafe.gc order
  refine ⟨fun n hn e he => Skeleton.Secure.attached hgc.secure hn he, fun x k hk hx => ?_⟩
  by_contra hclosed
  have hclosed : ((σ.gc order).scopes x).done = true := by simpa using hclosed
  have hopen := Skeleton.Secure.owners hgc.secure hk (gc_closes_shared hsafe.shape order hx hclosed)
  exact absurd hclosed (by rw [show ((σ.gc order).scopes x).done = false from hopen]; simp)

/-- A stream of peer `a` with a protocol and a service, and a closed stream of
peer `b`. -/
def servedManager : Manager :=
  fourManager.run [.openStream "a" .inbound, .setProtocol (.node 5) "x", .setService (.node 5) "s",
    .openStream "b" .inbound, .done (.node 11)]

theorem servedManager_reach : Reach .step Manager.SetsOpen fourManager servedManager :=
  .step (Op.done (.node 11)) (.step (Op.openStream "b" .inbound)
    (.step (Op.setService (.node 5) "s") (.step (Op.setProtocol (.node 5) "x")
      (.step (Op.openStream "a" .inbound) .init (by decide +kernel)) (by decide +kernel))
      (by decide +kernel)) (by decide +kernel)) (by decide +kernel)

/-- One walk over the tables of that state. -/
def oneWalk : Manager.GcOrder := ⟨["x"], ["a", "b"], ["s"], ["x"]⟩

/-- `gc` closes the scope of peer `b` and spares those of peer `a`. -/
theorem gc_spares_used_served :
    ((servedManager.gc oneWalk).scopes (.node 10)).done = true ∧
    (∀ n, ((servedManager.gc oneWalk).scopes (.node n)).done = false →
      ∀ e ∈ ((servedManager.gc oneWalk).scopes (.node n)).edges,
        ((servedManager.gc oneWalk).scopes e).done = false) ∧
    ∀ x k, ((servedManager.gc oneWalk).scopes (.span x k)).done = false →
      (servedManager.scopes x).done = false → ((servedManager.gc oneWalk).scopes x).done = false :=
  ⟨by decide +kernel, gc_spares_used (.uniform fourLimit) .newConnLimiter {}
    (fun _ => false) (fun _ => false) servedManager_reach oneWalk⟩

end Dep2p.Rcmgr
