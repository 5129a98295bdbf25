import Dep2p.Rcmgr.Skeleton

/- The shape of the scope graph, after any run.

   Every table names scopes of the right kind; a connection is attached to the
   transient and system scopes, or to the allowlisted ones, or to its peer and a
   system scope; a stream is attached to its peer and, as it learns them, to its
   protocol and its service. This holds of every reachable state, including those
   reached by calls on closed scopes. -/
namespace Dep2p.Rcmgr

open Lib Function List Skeleton

variable {id e : ScopeId} {c : ConnectionScope} {s : StreamScope} {n : Nat} {err : Option RcErr}

/-- A name of a scope that connections and streams share. -/
def ScopeName.Shared : ScopeName → Prop
  | .conn _ | .stream _ | .span _ _ => False
  | _ => True

variable {κ : Skeleton} {nm : ScopeName} {P : ProtocolScope} {a : ScopeId} {p : PeerID}

namespace Skeleton

variable {edges : List ScopeId}

/-- `id` is a node that was created under the name `nm`. -/
def Named (κ : Skeleton) (id : ScopeId) (nm : ScopeName) : Prop :=
  ∃ n, id = .node n ∧ n < κ.next ∧ κ.name n = nm

/-- `id` is a node that connections and streams share. -/
def SharedScope (κ : Skeleton) (id : ScopeId) : Prop := ∃ nm, κ.Named id nm ∧ nm.Shared

/-- The edges of a connection, by what it is associated with. `left` is a
connection whose transfer from the allowlist was refused. -/
inductive ConnEdges (κ : Skeleton) (c : ConnectionScope) : List ScopeId → Prop where
  | opened : c.peer = none → c.isAllowlisted = false → ConnEdges κ c [transient, system]
  | allowlisted : c.peer = none → c.isAllowlisted = true →
      ConnEdges κ c [allowlistedTransient, allowlistedSystem]
  | left : c.peer = none → c.isAllowlisted = false → ConnEdges κ c []
  | transferred : c.peer = none → c.isAllowlisted = false → ConnEdges κ c [system, transient]
  | peered {P : PeerScope} : c.peer = some P → κ.Named P.scope (.peer P.peer) →
      ConnEdges κ c [P.scope, if c.isAllowlisted then allowlistedSystem else system]

/-- The edges of a stream, by what it is associated with. -/
inductive StreamEdges (κ : Skeleton) (s : StreamScope) : List ScopeId → Prop where
  | opened : s.proto = none → s.svc = none → StreamEdges κ s [s.peer.scope, transient, system]
  | negotiated {P : ProtocolScope} {pp : ScopeId} : s.proto = some P → s.peerProtoScope = some pp →
      s.svc = none → κ.Named P.scope (.protocol P.proto) →
      κ.Named pp (.protocolPeer P.proto s.peer.peer) →
      StreamEdges κ s [s.peer.scope, pp, P.scope, system]
  | served {P : ProtocolScope} {pp : ScopeId} {V : ServiceScope} {ps : ScopeId} :
      s.proto = some P → s.peerProtoScope = some pp → s.svc = some V → s.peerSvcScope = some ps →
      κ.Named P.scope (.protocol P.proto) → κ.Named pp (.protocolPeer P.proto s.peer.peer) →
      κ.Named V.scope (.service V.service) → κ.Named ps (.servicePeer V.service s.peer.peer) →
      StreamEdges κ s [s.peer.scope, pp, ps, P.scope, V.scope, system]

/-- A node is a connection, a stream, or a scope they share. -/
inductive NodeShape (κ : Skeleton) (n : Nat) : Prop where
  | conn {c : ConnectionScope} {k : Nat} : κ.conns (.node n) = some c → κ.streams (.node n) = none →
      κ.name n = .conn k → κ.ConnEdges c (κ.edges n) → NodeShape κ n
  | stream {s : StreamScope} {k : Nat} : κ.conns (.node n) = none → κ.streams (.node n) = some s →
      κ.name n = .stream k → κ.Named s.peer.scope (.peer s.peer.peer) →
      κ.StreamEdges s (κ.edges n) → NodeShape κ n
  | shared : κ.conns (.node n) = none → κ.streams (.node n) = none → (κ.name n).Shared →
      κ.edges n ∈ [[], [system], [allowlistedSystem]] → NodeShape κ n

/-- The tables of connections and streams speak of nodes that were created. -/
def Created (κ : Skeleton) (id : ScopeId) : Prop := ∃ n, id = .node n ∧ n < κ.next

/-- What the maps from names to scopes point to. -/
structure Tables (κ : Skeleton) : Prop where
  svc : ∀ {svc s}, κ.svc svc = some s → s.service = svc ∧ κ.Named s.scope (.service svc)
  proto : ∀ {proto s}, κ.proto proto = some s → s.proto = proto ∧ κ.Named s.scope (.protocol proto)
  peer : ∀ {p s}, κ.peer p = some s → s.peer = p ∧ κ.Named s.scope (.peer p)
  subPeer : ∀ {owner p ps}, κ.peers owner p = some ps →
    (∃ svc, κ.Named owner (.service svc) ∧ κ.Named ps (.servicePeer svc p)) ∨
    ∃ proto, κ.Named owner (.protocol proto) ∧ κ.Named ps (.protocolPeer proto p)

structure Shape (κ : Skeleton) : Prop where
  system : κ.Named system .system
  transient : κ.Named transient .transient
  allowlistedSystem : κ.Named allowlistedSystem .allowlistedSystem
  allowlistedTransient : κ.Named allowlistedTransient .allowlistedTransient
  tables : κ.Tables
  conns : ∀ {id}, κ.conns id ≠ none → κ.Created id
  streams : ∀ {id}, κ.streams id ≠ none → κ.Created id
  node : ∀ {n}, n < κ.next → κ.NodeShape n

/-! ## What the moves of the skeleton keep -/

/-- Nodes keep their names and are never forgotten. -/
structure Extends (κ κ' : Skeleton) : Prop where
  next : κ.next ≤ κ'.next
  name : ∀ n, n < κ.next → κ'.name n = κ.name n

variable {κ' : Skeleton}

theorem Extends.trans {κ'' : Skeleton} (h : κ.Extends κ') (h' : κ'.Extends κ'') : κ.Extends κ'' :=
  ⟨h.next.trans h'.next, fun n hn =>
    (h'.name n (lt_of_lt_of_le hn h.next)).trans (h.name n hn)⟩

theorem Named.mono (h : κ.Extends κ') (hn : κ.Named id nm) : κ'.Named id nm := by
  obtain ⟨n, rfl, hlt, hnm⟩ := hn
  exact ⟨n, rfl, lt_of_lt_of_le hlt h.next, (h.name n hlt).trans hnm⟩

variable {nm' : ScopeName}

/-- A node has one name. -/
theorem named_unique (h : κ.Named id nm) (h' : κ.Named id nm') : nm = nm' := by
  obtain ⟨n, rfl, -, hn⟩ := h
  obtain ⟨m, hm, -, hn'⟩ := h'
  cases hm
  exact hn.symm.trans hn'

theorem Named.ne {b : ScopeId} (ha : κ.Named a nm) (hb : κ.Named b nm')
    (hne : nm ≠ nm') : a ≠ b := by
  rintro rfl
  exact hne (named_unique ha hb)

theorem ConnEdges.mono (h : κ.Extends κ') (hc : κ.ConnEdges c edges) : κ'.ConnEdges c edges := by
  cases hc with
  | opened hp ha => exact .opened hp ha
  | allowlisted hp ha => exact .allowlisted hp ha
  | left hp ha => exact .left hp ha
  | transferred hp ha => exact .transferred hp ha
  | peered hp hn => exact .peered hp (hn.mono h)

theorem StreamEdges.mono (h : κ.Extends κ') (hs : κ.StreamEdges s edges) :
    κ'.StreamEdges s edges := by
  cases hs with
  | opened hp hv => exact .opened hp hv
  | negotiated hp hpp hv hn₁ hn₂ => exact .negotiated hp hpp hv (hn₁.mono h) (hn₂.mono h)
  | served hp hpp hv hps hn₁ hn₂ hn₃ hn₄ =>
    exact .served hp hpp hv hps (hn₁.mono h) (hn₂.mono h) (hn₃.mono h) (hn₄.mono h)

section

variable (h : κ.StreamEdges s edges)
include h

theorem StreamEdges.svc_none (hp : s.proto = none) : s.svc = none := by
  cases h with
  | opened _ hv => exact hv
  | negotiated hp' | served hp' => rw [hp] at hp'; cases hp'

/-- A stream without a protocol. -/
theorem StreamEdges.opened_inv (hp : s.proto = none) :
    edges = [s.peer.scope, transient, system] := by
  cases h with
  | opened => rfl
  | negotiated hp' | served hp' => rw [hp] at hp'; cases hp'

theorem StreamEdges.peer_mem : s.peer.scope ∈ edges := by
  cases h <;> exact mem_cons_self

/-- A stream with a protocol and no service. -/
theorem StreamEdges.negotiated_inv (hp : s.proto = some P) (hv : s.svc = none) :
    ∃ pp, s.peerProtoScope = some pp ∧ κ.Named P.scope (.protocol P.proto) ∧
      κ.Named pp (.protocolPeer P.proto s.peer.peer) ∧
      edges = [s.peer.scope, pp, P.scope, system] := by
  cases h with
  | opened hp' => rw [hp] at hp'; cases hp'
  | negotiated hp' hpp _ hn₁ hn₂ => rw [hp] at hp'; cases hp'; exact ⟨_, hpp, hn₁, hn₂, rfl⟩
  | served _ _ hv' => rw [hv] at hv'; cases hv'

end

theorem Created.mono (h : κ.Extends κ') (hc : κ.Created id) : κ'.Created id := by
  obtain ⟨n, rfl, hlt⟩ := hc
  exact ⟨n, rfl, lt_of_lt_of_le hlt h.next⟩

theorem Tables.mono (h : κ.Extends κ') (ht : κ.Tables) (hsvc : κ'.svc = κ.svc)
    (hproto : κ'.proto = κ.proto) (hpeer : κ'.peer = κ.peer) (hpeers : κ'.peers = κ.peers) :
    κ'.Tables where
  svc hs := by rw [hsvc] at hs; exact ⟨(ht.svc hs).1, (ht.svc hs).2.mono h⟩
  proto hs := by rw [hproto] at hs; exact ⟨(ht.proto hs).1, (ht.proto hs).2.mono h⟩
  peer hs := by rw [hpeer] at hs; exact ⟨(ht.peer hs).1, (ht.peer hs).2.mono h⟩
  subPeer hs := by
    rw [hpeers] at hs
    rcases ht.subPeer hs with ⟨svc, ho, hp⟩ | ⟨proto, ho, hp⟩
    · exact .inl ⟨svc, ho.mono h, hp.mono h⟩
    · exact .inr ⟨proto, ho.mono h, hp.mono h⟩

/-- The node is as it was. -/
structure SameNode (κ κ' : Skeleton) (n : Nat) : Prop where
  conns : κ'.conns (.node n) = κ.conns (.node n)
  streams : κ'.streams (.node n) = κ.streams (.node n)
  edges : κ'.edges n = κ.edges n

theorem NodeShape.mono (h : κ.Extends κ') (hn : n < κ.next) (hsame : κ.SameNode κ' n)
    (hshape : κ.NodeShape n) : κ'.NodeShape n := by
  have hname := h.name n hn
  cases hshape with
  | conn hc hs hnm he =>
    exact .conn (hsame.conns.trans hc) (hsame.streams.trans hs) (hname.trans hnm)
      (hsame.edges ▸ he.mono h)
  | stream hc hs hnm hp he =>
    exact .stream (hsame.conns.trans hc) (hsame.streams.trans hs) (hname.trans hnm) (hp.mono h)
      (hsame.edges ▸ he.mono h)
  | shared hc hs hnm he =>
    exact .shared (hsame.conns.trans hc) (hsame.streams.trans hs) (hname ▸ hnm) (hsame.edges ▸ he)

namespace Shape

variable {κ κ' : Skeleton}

/-- A move that keeps the maps: every node is as it was, or is accounted for anew. -/
theorem extend (h : κ.Shape) (hext : κ.Extends κ') (ht : κ'.Tables)
    (hconns : ∀ id, κ'.conns id ≠ none → κ.conns id ≠ none ∨ κ'.Created id)
    (hstreams : ∀ id, κ'.streams id ≠ none → κ.streams id ≠ none ∨ κ'.Created id)
    (hnode : ∀ n, n < κ'.next → (n < κ.next ∧ κ.SameNode κ' n) ∨ κ'.NodeShape n) : κ'.Shape where
  system := h.system.mono hext
  transient := h.transient.mono hext
  allowlistedSystem := h.allowlistedSystem.mono hext
  allowlistedTransient := h.allowlistedTransient.mono hext
  tables := ht
  conns {id} hid := (hconns id hid).elim (fun ho => (h.conns ho).mono hext) fun hn => hn
  streams {id} hid := (hstreams id hid).elim (fun ho => (h.streams ho).mono hext) fun hn => hn
  node {n} hn := (hnode n hn).elim (fun ho => (h.node ho.1).mono hext ho.1 ho.2) fun hs => hs

theorem fresh_conns (h : κ.Shape) : κ.conns (.node κ.next) = none := by
  by_contra hc
  obtain ⟨n, hid, hlt⟩ := h.conns hc
  cases hid; omega

theorem fresh_streams (h : κ.Shape) : κ.streams (.node κ.next) = none := by
  by_contra hs
  obtain ⟨n, hid, hlt⟩ := h.streams hs
  cases hid; omega

end Shape

section

variable (κ : Skeleton) (edges : List ScopeId) (name : ScopeName)

theorem extends_alloc :
    κ.Extends (κ.alloc edges name) := by
  refine ⟨Nat.le_succ _, fun n hn => ?_⟩
  simp only [alloc, update_apply]
  exact if_neg (ne_of_lt hn)

theorem named_alloc :
    (κ.alloc edges name).Named (.node κ.next) name :=
  ⟨κ.next, rfl, Nat.lt_succ_self _, by simp [alloc]⟩

theorem alloc_edges_self :
    (κ.alloc edges name).edges κ.next = edges := by simp [alloc]

end

theorem alloc_edges_of_lt (h : n < κ.next) (name : ScopeName) :
    (κ.alloc edges name).edges n = κ.edges n := by
  simp only [alloc, update_apply]
  exact if_neg (ne_of_lt h)

namespace Shape

variable {κ : Skeleton}

section

variable (h : κ.Shape)
include h

/-- A new shared scope. -/
theorem alloc {name : ScopeName} (hname : name.Shared)
    (hedges : edges ∈ [[], [Rcmgr.system], [Rcmgr.allowlistedSystem]]) :
    (κ.alloc edges name).Shape := by
  have hext := extends_alloc κ edges name
  refine h.extend hext (h.tables.mono hext rfl rfl rfl rfl) (fun _ hc => .inl hc)
    (fun _ hs => .inl hs) fun n hn => ?_
  rcases Nat.lt_succ_iff_lt_or_eq.mp hn with hlt | rfl
  · exact .inl ⟨hlt, rfl, rfl, alloc_edges_of_lt hlt name⟩
  · refine .inr (.shared h.fresh_conns h.fresh_streams ?_ ?_)
    · simpa [Skeleton.alloc] using hname
    · rw [alloc_edges_self]; exact hedges

/-- The entries of the node `n` are all that is new. -/
theorem oneNode (hext : κ.Extends κ') (ht : κ'.Tables) (hnode : κ'.NodeShape n)
    (hn : n < κ'.next) (hconns : ∀ id, id ≠ .node n → κ'.conns id = κ.conns id)
    (hstreams : ∀ id, id ≠ .node n → κ'.streams id = κ.streams id)
    (hedges : ∀ m, m < κ'.next → m ≠ n → m < κ.next ∧ κ'.edges m = κ.edges m) : κ'.Shape := by
  refine h.extend hext ht (fun id hid => ?_) (fun id hid => ?_) fun m hm => ?_
  · by_cases hnew : id = .node n
    · exact .inr ⟨n, hnew, hn⟩
    · exact .inl (hconns id hnew ▸ hid)
  · by_cases hnew : id = .node n
    · exact .inr ⟨n, hnew, hn⟩
    · exact .inl (hstreams id hnew ▸ hid)
  · by_cases hmn : m = n
    · exact .inr (hmn ▸ hnode)
    · have hne : ScopeId.node m ≠ .node n := fun heq => hmn (ScopeId.node.inj heq)
      obtain ⟨hlt, he⟩ := hedges m hm hmn
      exact .inl ⟨hlt, hconns _ hne, hstreams _ hne, he⟩

/-- A new connection. -/
theorem allocConn (k : Nat) (hc : κ.ConnEdges c edges) :
    ((κ.alloc edges (.conn k)).setConn (.node κ.next) c).Shape := by
  have hext : κ.Extends ((κ.alloc edges (.conn k)).setConn (.node κ.next) c) :=
    ⟨(extends_alloc κ edges (.conn k)).next, (extends_alloc κ edges (.conn k)).name⟩
  refine h.oneNode hext (h.tables.mono hext rfl rfl rfl rfl)
    (.conn (k := k) (c := c) ?_ h.fresh_streams ?_ ?_) (Nat.lt_succ_self _)
    (fun id hid => update_of_ne hid ..) (fun _ _ => rfl) fun m hm hmn => ?_
  · simp [setConn]
  · simp [setConn, Skeleton.alloc]
  · have he := hc.mono hext
    simpa only [setConn, alloc_edges_self] using he
  · have hlt := lt_of_le_of_ne (Nat.le_of_lt_succ hm) hmn
    exact ⟨hlt, alloc_edges_of_lt hlt (.conn k)⟩

/-- A new stream. -/
theorem allocStream (k : Nat) (hp : κ.Named s.peer.scope (.peer s.peer.peer))
    (hs : κ.StreamEdges s edges) :
    ((κ.alloc edges (.stream k)).setStream (.node κ.next) s).Shape := by
  have hext : κ.Extends ((κ.alloc edges (.stream k)).setStream (.node κ.next) s) :=
    ⟨(extends_alloc κ edges (.stream k)).next, (extends_alloc κ edges (.stream k)).name⟩
  refine h.oneNode hext (h.tables.mono hext rfl rfl rfl rfl)
    (.stream (k := k) h.fresh_conns ?_ ?_ (hp.mono hext) ?_) (Nat.lt_succ_self _)
    (fun _ _ => rfl) (fun id hid => update_of_ne hid ..) fun m hm hmn => ?_
  · simp [setStream]
  · simp [setStream, Skeleton.alloc]
  · have he := hs.mono hext
    simpa only [setStream, alloc_edges_self] using he
  · have hlt := lt_of_le_of_ne (Nat.le_of_lt_succ hm) hmn
    exact ⟨hlt, alloc_edges_of_lt hlt (.stream k)⟩

/-- A connection is a node with the edges of a connection. -/
theorem conn (hc : κ.conns id = some c) :
    ∃ n k, id = .node n ∧ n < κ.next ∧ κ.streams id = none ∧ κ.name n = .conn k ∧
      κ.ConnEdges c (κ.edges n) := by
  obtain ⟨n, rfl, hlt⟩ := h.conns (by rw [hc]; simp)
  cases h.node hlt with
  | conn hc' hs hnm he =>
    rw [hc] at hc'; cases hc'
    exact ⟨n, _, rfl, hlt, hs, hnm, he⟩
  | stream hc' | shared hc' => rw [hc] at hc'; cases hc'

/-- A stream is a node with the edges of a stream. -/
theorem stream (hs : κ.streams id = some s) :
    ∃ n k, id = .node n ∧ n < κ.next ∧ κ.conns id = none ∧ κ.name n = .stream k ∧
      κ.Named s.peer.scope (.peer s.peer.peer) ∧ κ.StreamEdges s (κ.edges n) := by
  obtain ⟨n, rfl, hlt⟩ := h.streams (by rw [hs]; simp)
  cases h.node hlt with
  | conn _ hs' => rw [hs] at hs'; cases hs'
  | stream hc hs' hnm hp he =>
    rw [hs] at hs'; cases hs'
    exact ⟨n, _, rfl, hlt, hc, hnm, hp, he⟩
  | shared _ hs' => rw [hs] at hs'; cases hs'

/-- A connection is attached to shared scopes, none of them inside a service or a
protocol. -/
theorem connEdges_named (hc : κ.ConnEdges c edges) :
    ∀ e ∈ edges, ∃ nm, κ.Named e nm ∧ nm.Shared ∧ nm.insidePeer = none := by
  have hsys : ∃ nm, κ.Named Rcmgr.system nm ∧ nm.Shared ∧ nm.insidePeer = none :=
    ⟨_, h.system, trivial, rfl⟩
  have htra : ∃ nm, κ.Named Rcmgr.transient nm ∧ nm.Shared ∧ nm.insidePeer = none :=
    ⟨_, h.transient, trivial, rfl⟩
  have hasys : ∃ nm, κ.Named Rcmgr.allowlistedSystem nm ∧ nm.Shared ∧ nm.insidePeer = none :=
    ⟨_, h.allowlistedSystem, trivial, rfl⟩
  have hatra : ∃ nm, κ.Named Rcmgr.allowlistedTransient nm ∧ nm.Shared ∧ nm.insidePeer = none :=
    ⟨_, h.allowlistedTransient, trivial, rfl⟩
  cases hc with
  | opened => exact forall_mem_cons.mpr ⟨htra, by simpa using hsys⟩
  | allowlisted => exact forall_mem_cons.mpr ⟨hatra, by simpa using hasys⟩
  | left => exact fun e he => absurd he not_mem_nil
  | transferred => exact forall_mem_cons.mpr ⟨hsys, by simpa using htra⟩
  | peered hp hP =>
    refine forall_mem_cons.mpr ⟨⟨_, hP, trivial, rfl⟩, ?_⟩
    split
    · simpa using hasys
    · simpa using hsys

/-- A stream is attached to shared scopes; those inside a service or a protocol
belong to its peer. -/
theorem streamEdges_named (hp : κ.Named s.peer.scope (.peer s.peer.peer))
    (hs : κ.StreamEdges s edges) :
    ∀ e ∈ edges, ∃ nm, κ.Named e nm ∧ nm.Shared ∧ ∀ p, nm.insidePeer = some p → p = s.peer.peer := by
  have hsys : ∃ nm, κ.Named Rcmgr.system nm ∧ nm.Shared ∧
      ∀ p, nm.insidePeer = some p → p = s.peer.peer := ⟨_, h.system, trivial, nofun⟩
  have htra : ∃ nm, κ.Named Rcmgr.transient nm ∧ nm.Shared ∧
      ∀ p, nm.insidePeer = some p → p = s.peer.peer := ⟨_, h.transient, trivial, nofun⟩
  have hpeer : ∃ nm, κ.Named s.peer.scope nm ∧ nm.Shared ∧
      ∀ p, nm.insidePeer = some p → p = s.peer.peer := ⟨_, hp, trivial, nofun⟩
  cases hs with
  | opened => simpa only [forall_mem_cons, not_mem_nil, false_implies, implies_true,
      and_true] using ⟨hpeer, htra, hsys⟩
  | negotiated _ _ _ h₁ h₂ =>
    simpa only [forall_mem_cons, not_mem_nil, false_implies, implies_true, and_true] using
      ⟨hpeer, ⟨_, h₂, trivial, fun _ hq => (Option.some.inj hq).symm⟩, ⟨_, h₁, trivial, nofun⟩, hsys⟩
  | served _ _ _ _ h₁ h₂ h₃ h₄ =>
    simpa only [forall_mem_cons, not_mem_nil, false_implies, implies_true, and_true] using
      ⟨hpeer, ⟨_, h₂, trivial, fun _ hq => (Option.some.inj hq).symm⟩,
        ⟨_, h₄, trivial, fun _ hq => (Option.some.inj hq).symm⟩, ⟨_, h₁, trivial, nofun⟩,
        ⟨_, h₃, trivial, nofun⟩, hsys⟩

/-- Edges lead to shared scopes, never to connections or streams; the scopes a
peer has inside services and protocols are edges of its streams only. -/
theorem edge_named (hn : n < κ.next) (he : e ∈ κ.edges n) :
    ∃ nm, κ.Named e nm ∧ nm.Shared ∧
      ∀ p, nm.insidePeer = some p → ∃ s, κ.streams (.node n) = some s ∧ s.peer.peer = p := by
  cases h.node hn with
  | conn hc hs hnm hedges =>
    obtain ⟨nm, h₁, h₂, h₃⟩ := h.connEdges_named hedges e he
    exact ⟨nm, h₁, h₂, fun p hp => by rw [h₃] at hp; cases hp⟩
  | stream hc hs hnm hp hedges =>
    obtain ⟨nm, h₁, h₂, h₃⟩ := h.streamEdges_named hp hedges e he
    exact ⟨nm, h₁, h₂, fun p hp => ⟨_, hs, (h₃ p hp).symm⟩⟩
  | shared hc hs hnm hedges =>
    simp only [mem_cons, not_mem_nil, or_false] at hedges
    rcases hedges with hed | hed | hed <;> rw [hed] at he
    · cases he
    · obtain rfl := mem_singleton.mp he
      exact ⟨_, h.system, trivial, nofun⟩
    · obtain rfl := mem_singleton.mp he
      exact ⟨_, h.allowlistedSystem, trivial, nofun⟩

theorem edge_shared (hn : n < κ.next) (he : e ∈ κ.edges n) : κ.SharedScope e := by
  obtain ⟨nm, hnm, hshared, -⟩ := h.edge_named hn he
  exact ⟨nm, hnm, hshared⟩

theorem edge_created (hn : n < κ.next) (he : e ∈ κ.edges n) : κ.Created e := by
  obtain ⟨nm, ⟨m, hm, hlt, -⟩, -⟩ := h.edge_shared hn he
  exact ⟨m, hm, hlt⟩

/-- No scope is attached to the same scope twice. -/
theorem edges_nodup (hn : n < κ.next) : (κ.edges n).Nodup := by
  have hst := h.system.ne h.transient nofun
  have hast := h.allowlistedSystem.ne h.allowlistedTransient nofun
  cases h.node hn with
  | conn hc hs hnm hedges =>
    generalize κ.edges n = es at hedges
    cases hedges with
    | opened => simpa using hst.symm
    | allowlisted => simpa using hast.symm
    | left => exact nodup_nil
    | transferred => simpa using hst
    | peered hp hP =>
      split
      · simpa using hP.ne h.allowlistedSystem nofun
      · simpa using hP.ne h.system nofun
  | stream hc hs hnm hp hedges =>
    generalize κ.edges n = es at hedges
    cases hedges with
    | opened =>
      simp [hp.ne h.transient nofun, hp.ne h.system nofun, hst.symm]
    | negotiated _ _ _ hP hpp =>
      simp [hp.ne hpp nofun, hp.ne hP nofun, hp.ne h.system nofun, hpp.ne hP nofun,
        hpp.ne h.system nofun, hP.ne h.system nofun]
    | served _ _ _ _ hP hpp hV hps =>
      simp [hp.ne hpp nofun, hp.ne hps nofun, hp.ne hP nofun, hp.ne hV nofun, hp.ne h.system nofun,
        hpp.ne hps nofun, hpp.ne hP nofun, hpp.ne hV nofun, hpp.ne h.system nofun, hps.ne hP nofun,
        hps.ne hV nofun, hps.ne h.system nofun, hP.ne hV nofun, hP.ne h.system nofun,
        hV.ne h.system nofun]
  | shared hc hs hnm hedges =>
    simp only [mem_cons, not_mem_nil, or_false] at hedges
    rcases hedges with hed | hed | hed <;> simp [hed]

/-- A connection moves to other edges. -/
theorem moveConn {c' : ConnectionScope} (hc : κ.conns id = some c) (he : κ.ConnEdges c' edges) :
    ((κ.setEdges id edges).setConn id c').Shape := by
  obtain ⟨n, k, rfl, hlt, hs, hnm, -⟩ := h.conn hc
  have hext : κ.Extends ((κ.setEdges (.node n) edges).setConn (.node n) c') :=
    ⟨le_refl _, fun _ _ => rfl⟩
  refine h.oneNode hext (h.tables.mono hext rfl rfl rfl rfl) (.conn (c := c') ?_ hs hnm ?_)
    hlt (fun id hid => update_of_ne hid ..) (fun _ _ => rfl) fun m hm hmn => ⟨hm, ?_⟩
  · simp [setConn]
  · have he' := he.mono hext
    simpa [setConn, setEdges] using he'
  · simp [setConn, setEdges, hmn]

/-- A stream moves to other edges. -/
theorem moveStream {s' : StreamScope} (hs : κ.streams id = some s)
    (hp : κ.Named s'.peer.scope (.peer s'.peer.peer)) (he : κ.StreamEdges s' edges) :
    ((κ.setEdges id edges).setStream id s').Shape := by
  obtain ⟨n, k, rfl, hlt, hc, hnm, -⟩ := h.stream hs
  have hext : κ.Extends ((κ.setEdges (.node n) edges).setStream (.node n) s') :=
    ⟨le_refl _, fun _ _ => rfl⟩
  refine h.oneNode hext (h.tables.mono hext rfl rfl rfl rfl)
    (.stream hc ?_ hnm (hp.mono hext) ?_) hlt (fun _ _ => rfl)
    (fun id hid => update_of_ne hid ..) fun m hm hmn => ⟨hm, ?_⟩
  · simp [setStream]
  · have he' := he.mono hext
    simpa [setStream, setEdges] using he'
  · simp [setStream, setEdges, hmn]

/-- The maps change, the nodes do not. -/
theorem setTables (hnext : κ'.next = κ.next) (hname : κ'.name = κ.name)
    (hedges : κ'.edges = κ.edges) (hconns : κ'.conns = κ.conns) (hstreams : κ'.streams = κ.streams)
    (ht : κ'.Tables) : κ'.Shape := by
  have hext : κ.Extends κ' := ⟨le_of_eq hnext.symm, fun n _ => by rw [hname]⟩
  refine h.extend hext ht (fun _ hc => .inl (hconns ▸ hc)) (fun _ hs => .inl (hstreams ▸ hs))
    fun n hn => .inl ⟨hnext ▸ hn, ?_⟩
  exact ⟨by rw [hconns], by rw [hstreams], by rw [hedges]⟩

theorem enterService {svc : String} {s : Option ServiceScope}
    (hs : ∀ x, s = some x → x.service = svc ∧ κ.Named x.scope (.service svc)) :
    (κ.enterService svc s).Shape := by
  refine h.setTables rfl rfl rfl rfl rfl { h.tables with svc := ?_ }
  intro svc' x hx
  simp only [Skeleton.enterService, update_apply] at hx
  split at hx
  · rename_i heq; subst heq; exact hs x hx
  · exact h.tables.svc hx

theorem enterProtocol {proto : ProtocolID} {s : Option ProtocolScope}
    (hs : ∀ x, s = some x → x.proto = proto ∧ κ.Named x.scope (.protocol proto)) :
    (κ.enterProtocol proto s).Shape := by
  refine h.setTables rfl rfl rfl rfl rfl { h.tables with proto := ?_ }
  intro proto' x hx
  simp only [Skeleton.enterProtocol, update_apply] at hx
  split at hx
  · rename_i heq; subst heq; exact hs x hx
  · exact h.tables.proto hx

theorem enterPeer {s : Option PeerScope}
    (hs : ∀ x, s = some x → x.peer = p ∧ κ.Named x.scope (.peer p)) : (κ.enterPeer p s).Shape := by
  refine h.setTables rfl rfl rfl rfl rfl { h.tables with peer := ?_ }
  intro p' x hx
  simp only [Skeleton.enterPeer, update_apply] at hx
  split at hx
  · rename_i heq; subst heq; exact hs x hx
  · exact h.tables.peer hx

theorem enterSubPeer {owner : ScopeId} {ps : Option ScopeId}
    (hs : ∀ x, ps = some x →
      (∃ svc, κ.Named owner (.service svc) ∧ κ.Named x (.servicePeer svc p)) ∨
      ∃ proto, κ.Named owner (.protocol proto) ∧ κ.Named x (.protocolPeer proto p)) :
    (κ.enterSubPeer owner p ps).Shape := by
  refine h.setTables rfl rfl rfl rfl rfl { h.tables with subPeer := ?_ }
  intro owner' p' x hx
  simp only [Skeleton.enterSubPeer, update_apply] at hx
  split at hx
  · rename_i heq
    subst heq
    rw [update_apply] at hx
    split at hx
    · rename_i heq; subst heq; exact hs x hx
    · exact h.tables.subPeer hx
  · exact h.tables.subPeer hx

end

end Shape

end Skeleton

/-! ## The operations of the manager -/

namespace Manager

open Skeleton (Named Extends Shape Tables ConnEdges StreamEdges named_unique)

variable {σ σ' : Manager}

/-- The skeleton after a call that only changes counters. -/
theorem skel_of_acquire {r : Reservation}
    (h : σ.acquire r id = (σ', err)) : σ'.skel = σ.skel := by
  have := skel_acquire σ r id
  rwa [h] at this

variable {st : ScopeStat} {σ₁ σ₂ : Manager}

theorem skel_of_reserveForChild
    (h : σ.reserveForChild id st = (σ', err)) : σ'.skel = σ.skel := by
  have := skel_reserveForChild σ id st
  rwa [h] at this

/-- `id` was found, or created, under the name `nm`; connections, streams and the
edges of the scopes there were are as before. -/
structure Found (σ σ' : Manager) (id : ScopeId) (nm : ScopeName) : Prop where
  shape : σ'.skel.Shape
  named : σ'.skel.Named id nm
  ext : σ.skel.Extends σ'.skel
  conns : σ'.conns = σ.conns
  streams : σ'.streams = σ.streams
  edges : ∀ n, n < σ.next → σ'.skel.edges n = σ.skel.edges n

theorem Found.of_skel (h : σ.Found σ₁ id nm) (hs : σ₂.skel = σ₁.skel) :
    σ.Found σ₂ id nm where
  shape := hs ▸ h.shape
  named := hs ▸ h.named
  ext := hs ▸ h.ext
  conns := (congrArg Skeleton.conns hs).trans h.conns
  streams := (congrArg Skeleton.streams hs).trans h.streams
  edges n hn := by rw [hs]; exact h.edges n hn

variable {σ : Manager}

theorem found_self (h : σ.skel.Shape) (hn : σ.skel.Named id nm) : σ.Found σ id nm :=
  ⟨h, hn, ⟨le_refl _, fun _ _ => rfl⟩, rfl, rfl, fun _ _ => rfl⟩

/-- A node was created, and a map changed. -/
theorem found_new {edges : List ScopeId} (hshape : σ₂.skel.Shape)
    (h₁ : σ₁.skel = σ.skel.alloc edges nm) (hnext : σ₂.next = σ₁.next)
    (hname : σ₂.skel.name = σ₁.skel.name) (hedges : σ₂.skel.edges = σ₁.skel.edges)
    (hconns : σ₂.conns = σ₁.conns) (hstreams : σ₂.streams = σ₁.streams) :
    σ.Found σ₂ σ.fresh nm := by
  have hnext' : σ₂.skel.next = σ.next + 1 := hnext.trans (congrArg Skeleton.next h₁)
  rw [h₁] at hname hedges
  refine ⟨hshape, ⟨σ.next, rfl, ?_, ?_⟩, ⟨?_, fun n hn => ?_⟩,
    hconns.trans (congrArg Skeleton.conns h₁), hstreams.trans (congrArg Skeleton.streams h₁),
    fun n hn => ?_⟩
  · rw [hnext']; exact Nat.lt_succ_self _
  · rw [hname]; exact update_self ..
  · rw [hnext']; exact Nat.le_succ _
  · rw [hname]; exact (extends_alloc σ.skel edges nm).name n hn
  · rw [hedges]; exact alloc_edges_of_lt hn nm

theorem found_lookupPeer (h : σ.skel.Shape) :
    σ.Found (σ.lookupPeer p).1 (σ.lookupPeer p).2.scope (.peer p) ∧
      (σ.lookupPeer p).2.peer = p := by
  simp only [lookupPeer]
  split
  · rename_i s hs
    obtain ⟨heq, hn⟩ := h.tables.peer hs
    exact ⟨found_self h hn, heq⟩
  · have hshape : (σ.skel.alloc [system] (.peer p)).Shape := h.alloc trivial (by simp)
    refine ⟨found_new ?_ (skel_newResourceScope σ _ _) rfl rfl rfl rfl rfl, rfl⟩
    rw [skel_enterPeer, skel_newResourceScope]
    exact hshape.enterPeer fun x hx => by cases hx; exact ⟨rfl, named_alloc _ _ _⟩

theorem found_getPeerScope (h : σ.skel.Shape) (p : PeerID) :
    σ.Found (σ.getPeerScope p).1 (σ.getPeerScope p).2.scope (.peer p) ∧
      (σ.getPeerScope p).2.peer = p :=
  ⟨(found_lookupPeer h).1.of_skel (skel_incRef _), (found_lookupPeer h).2⟩

/-! ### Services and protocols -/

/-- A stream is set to a protocol, and then to a service. What is said of the two calls is
said of both at once. -/
inductive Sector where
  | protocol (proto : ProtocolID)
  | service (svc : String)

namespace Sector

def name : Sector → ScopeName
  | .protocol proto => .protocol proto
  | .service svc => .service svc

def peerName (p : PeerID) : Sector → ScopeName
  | .protocol proto => .protocolPeer proto p
  | .service svc => .servicePeer svc p

def peerLimits (l : Limiter) : Sector → Limit
  | .protocol proto => l.getProtocolPeerLimits proto
  | .service svc => l.getServicePeerLimits svc

/-- The scopes that a stream leaves when it enters the sector. -/
def leaves : Sector → List ScopeId
  | .protocol _ => [transient]
  | .service _ => []

/-- The stream in the scope `a` of the sector and the scope `b` of its peer there. -/
def entered (s : StreamScope) (a b : ScopeId) : Sector → StreamScope
  | .protocol proto => { s with proto := some ⟨a, proto⟩, peerProtoScope := some b }
  | .service svc => { s with svc := some ⟨a, svc⟩, peerSvcScope := some b }

def edges (s : StreamScope) (a b : ScopeId) : Sector → List ScopeId
  | .protocol _ => [s.peer.scope, b, a, system]
  | .service _ => s.peer.scope :: s.peerProtoScope.toList ++
      (b :: (s.proto.map (·.scope)).toList ++ [a, system])

theorem name_shared (t : Sector) : t.name.Shared := by
  cases t <;> exact trivial

theorem peerName_shared (t : Sector) (p : PeerID) : (t.peerName p).Shared := by
  cases t <;> exact trivial

theorem peerName_ne (t : Sector) (p : PeerID) : t.peerName p ≠ t.name := by
  cases t <;> exact nofun

end Sector

def lookupSector (σ : Manager) : Sector → Manager × ScopeId
  | .protocol proto => ((σ.lookupProtocol proto).1, (σ.lookupProtocol proto).2.scope)
  | .service svc => ((σ.lookupService svc).1, (σ.lookupService svc).2.scope)

/-- The scope of a peer inside the scope `a` of the sector. -/
def lookupInside (σ : Manager) (t : Sector) (a : ScopeId) (p : PeerID) : Manager × ScopeId :=
  σ.lookupSubPeer a (t.peerLimits σ.limits) (t.peerName p) p

def setSector (σ : Manager) (id : ScopeId) : Sector → Manager × Option RcErr
  | .protocol proto => σ.setProtocol id proto
  | .service svc => σ.setService id svc

/-- `setSector` of a stream that may enter the sector. -/
def enroll (σ : Manager) (id : ScopeId) (s : StreamScope) (t : Sector) : Manager × Option RcErr :=
  let a := (σ.lookupSector t).2
  let σ := (σ.lookupSector t).1.incRef a
  let st := σ.stat id
  match σ.reserveForChild a st with
  | (σ, some err) => (σ.decRef a, some err)
  | (σ, none) =>
    let b := (σ.lookupInside t a s.peer.peer).2
    let σ := (σ.lookupInside t a s.peer.peer).1.incRef b
    match σ.reserveForChild b st with
    | (σ, some err) => (((σ.releaseForChild a st).decRef a).decRef b, some err)
    | (σ, none) =>
      let σ := t.leaves.foldl (fun σ x => (σ.releaseForChild x st).decRef x) σ
      ((σ.setEdges id (t.edges s a b)).setStream id (t.entered s a b), none)

variable {t : Sector}

section

variable (h : σ.skel.Shape)
include h

theorem found_lookupSector (t : Sector) :
    σ.Found (σ.lookupSector t).1 (σ.lookupSector t).2 t.name := by
  cases t with
  | protocol proto =>
    simp only [lookupSector, lookupProtocol]
    split
    · rename_i s hs
      exact found_self h (h.tables.proto hs).2
    · have hshape : (σ.skel.alloc [system] (.protocol proto)).Shape := h.alloc trivial (by simp)
      refine found_new ?_ (skel_newResourceScope σ _ _) rfl rfl rfl rfl rfl
      rw [skel_enterProtocol, skel_newResourceScope]
      exact hshape.enterProtocol fun x hx => by cases hx; exact ⟨rfl, named_alloc _ _ _⟩
  | service svc =>
    simp only [lookupSector, lookupService]
    split
    · rename_i s hs
      exact found_self h (h.tables.svc hs).2
    · have hshape : (σ.skel.alloc [system] (.service svc)).Shape := h.alloc trivial (by simp)
      refine found_new ?_ (skel_newResourceScope σ _ _) rfl rfl rfl rfl rfl
      rw [skel_enterService, skel_newResourceScope]
      exact hshape.enterService fun x hx => by cases hx; exact ⟨rfl, named_alloc _ _ _⟩

theorem found_lookupInside (ha : σ.skel.Named a t.name) :
    σ.Found (σ.lookupInside t a p).1 (σ.lookupInside t a p).2 (t.peerName p) := by
  have hshape : (σ.skel.alloc [] (t.peerName p)).Shape := h.alloc (t.peerName_shared p) (by simp)
  have ha' := ha.mono (extends_alloc σ.skel [] (t.peerName p))
  simp only [lookupInside, lookupSubPeer]
  split
  · rename_i ps hps
    cases t <;> rcases h.tables.subPeer hps with ⟨x, ho, hp⟩ | ⟨x, ho, hp⟩
    · cases named_unique ha ho
    · cases named_unique ha ho
      exact found_self h hp
    · cases named_unique ha ho
      exact found_self h hp
    · cases named_unique ha ho
  · refine found_new ?_ (skel_newResourceScope σ _ _) rfl rfl rfl rfl rfl
    rw [skel_enterSubPeer, skel_newResourceScope]
    refine hshape.enterSubPeer fun x hx => ?_
    cases hx
    cases t with
    | protocol proto => exact .inr ⟨proto, ha', named_alloc _ _ _⟩
    | service svc => exact .inl ⟨svc, ha', named_alloc _ _ _⟩

/-- The stream of the node `n` may enter the sector: what it will be attached to is what it
is attached to now, without the scopes it leaves, and the two scopes of the sector. -/
structure Enrolling (σ : Manager) (n : Nat) (s : StreamScope) (t : Sector) : Prop where
  lt : n < σ.next
  stream : σ.streams (.node n) = some s
  peer : σ.skel.Named s.peer.scope (.peer s.peer.peer)
  left : t.leaves ⊆ (σ.scopes (.node n)).edges
  perm : ∀ a b, (t.leaves ++ t.edges s a b).Perm (a :: b :: (σ.scopes (.node n)).edges)
  names : ∀ e ∈ (σ.scopes (.node n)).edges,
    ∃ nm, σ.skel.Named e nm ∧ nm ≠ t.name ∧ nm ≠ t.peerName s.peer.peer
  enters : ∀ {κ a b}, σ.skel.Extends κ → κ.Named a t.name → κ.Named b (t.peerName s.peer.peer) →
    κ.StreamEdges (t.entered s a b) (t.edges s a b)

theorem lookupProtocol_proto (proto : ProtocolID) : (σ.lookupProtocol proto).2.proto = proto := by
  simp only [lookupProtocol]
  split
  · rename_i s hs
    exact (h.tables.proto hs).1
  · rfl

theorem lookupService_service (svc : String) : (σ.lookupService svc).2.service = svc := by
  simp only [lookupService]
  split
  · rename_i s hs
    exact (h.tables.svc hs).1
  · rfl

theorem enrolling_protocol (hs : σ.streams id = some s) (hp : s.proto = none) (proto : ProtocolID) :
    ∃ n, id = .node n ∧ σ.Enrolling n s (.protocol proto) ∧
      σ.setProtocol id proto = σ.enroll id s (.protocol proto) := by
  obtain ⟨n, k, rfl, hlt, -, -, hpeer, hedges⟩ := h.stream hs
  have hold : (σ.scopes (.node n)).edges = [s.peer.scope, transient, system] := hedges.opened_inv hp
  refine ⟨n, rfl, ⟨hlt, hs, hpeer, by rw [hold]; simp [Sector.leaves], fun a b => ?_, ?_,
    fun {_ a b} _ ha hb => ?_⟩, ?_⟩
  · rw [hold, perm_iff_count]
    simp only [Sector.leaves, Sector.edges, cons_append, nil_append, count_cons]
    omega
  · rw [hold]
    simpa using ⟨⟨_, hpeer, nofun, nofun⟩, ⟨_, h.transient, nofun, nofun⟩,
      ⟨_, h.system, nofun, nofun⟩⟩
  · exact .negotiated (P := ⟨a, proto⟩) rfl rfl (hedges.svc_none hp) ha hb
  · have hP := lookupProtocol_proto h proto
    simp only [setProtocol, getProtocolScope, enroll, lookupSector, hs, hp]
    generalize σ.lookupProtocol proto = r at hP ⊢
    obtain ⟨τ, a, q⟩ := r
    obtain rfl : q = proto := hP
    rfl

theorem enrolling_service (hs : σ.streams id = some s) (hv : s.svc = none)
    (hp : s.proto = some P) (svc : String) : ∃ n, id = .node n ∧ σ.Enrolling n s (.service svc) ∧
      σ.setService id svc = σ.enroll id s (.service svc) := by
  obtain ⟨n, k, rfl, hlt, -, -, hpeer, hedges⟩ := h.stream hs
  obtain ⟨pp, hpp, hn₁, hn₂, hold⟩ := hedges.negotiated_inv hp hv
  replace hold : (σ.scopes (.node n)).edges = [s.peer.scope, pp, P.scope, system] := hold
  refine ⟨n, rfl, ⟨hlt, hs, hpeer, nil_subset _, fun a b => ?_, ?_,
    fun {_ a b} hext ha hb => ?_⟩, ?_⟩
  · rw [hold, perm_iff_count]
    simp only [Sector.leaves, Sector.edges, hp, hpp, Option.map_some, Option.toList_some,
      cons_append, nil_append, count_cons]
    omega
  · rw [hold]
    simpa using ⟨⟨_, hpeer, nofun, nofun⟩, ⟨_, hn₂, nofun, nofun⟩, ⟨_, hn₁, nofun, nofun⟩,
      ⟨_, h.system, nofun, nofun⟩⟩
  · simp only [Sector.edges, hp, hpp]
    exact .served (V := ⟨a, svc⟩) hp hpp rfl rfl (hn₁.mono hext) (hn₂.mono hext) ha hb
  · have hV := lookupService_service h svc
    simp only [setService, getServiceScope, enroll, lookupSector, hs, hv]
    generalize σ.lookupService svc = r at hV ⊢
    obtain ⟨τ, a, q⟩ := r
    obtain rfl : q = svc := hV
    simp only [Sector.edges, Sector.entered, hp]
    rfl

/-- A call changes nothing, or it enrolls the stream. -/
theorem setSector_cases (id : ScopeId) (t : Sector) :
    (∃ err, σ.setSector id t = (σ, err)) ∨ ∃ n s, id = .node n ∧ σ.Enrolling n s t ∧
      σ.setSector id t = σ.enroll (.node n) s t := by
  cases hs : σ.streams id with
  | none => exact .inl ⟨none, by cases t <;> simp only [setSector, setProtocol, setService, hs]⟩
  | some s =>
    cases t with
    | protocol proto =>
      cases hp : s.proto with
      | some P => exact .inl ⟨some .streamHasProtocol, by simp [setSector, setProtocol, hs, hp]⟩
      | none =>
        obtain ⟨n, rfl, he⟩ := enrolling_protocol h hs hp proto
        exact .inr ⟨n, s, rfl, he⟩
    | service svc =>
      cases hv : s.svc with
      | some V => exact .inl ⟨some .streamHasService, by simp [setSector, setService, hs, hv]⟩
      | none =>
        cases hp : s.proto with
        | none =>
          exact .inl ⟨some .streamHasNoProtocol, by simp [setSector, setService, hs, hv, hp]⟩
        | some P =>
          obtain ⟨n, rfl, he⟩ := enrolling_service h hs hv hp svc
          exact .inr ⟨n, s, rfl, he⟩

/-- After the first scope of the sector was charged, that of the peer is looked up in it. -/
theorem found_second {τ : Manager}
    (heq : ((σ.lookupSector t).1.incRef (σ.lookupSector t).2).reserveForChild
      (σ.lookupSector t).2 st = (τ, err))
    (p : PeerID) :
    σ.Found τ (σ.lookupSector t).2 t.name ∧ τ.Found (τ.lookupInside t (σ.lookupSector t).2 p).1
      (τ.lookupInside t (σ.lookupSector t).2 p).2 (t.peerName p) := by
  have hfound := (found_lookupSector h t).of_skel
    ((skel_of_reserveForChild heq).trans (skel_incRef _))
  exact ⟨hfound, found_lookupInside hfound.shape hfound.named⟩

end

/-! ### Opening -/

variable {c : ConnectionScope}

theorem ConnEdges.first (hc : c.peer = none) :
    ConnEdges κ c c.firstEdges := by
  unfold ConnectionScope.firstEdges
  split
  · rename_i ha
    exact .allowlisted hc ha
  · rename_i ha
    exact .opened hc (by simpa using ha)

theorem shape_newConn (h : σ.skel.Shape) (hc : c.peer = none) :
    (σ.newConn c).skel.Shape := by
  simp only [newConn, skel_setConn, skel_newResourceScope]
  exact h.allocConn _ (ConnEdges.first hc)

theorem shape_newStreamScope (h : σ.skel.Shape) (dir : Direction) {peer : PeerScope}
    (hp : σ.skel.Named peer.scope (.peer peer.peer)) :
    (σ.newStreamScope dir peer).skel.Shape := by
  simp only [newStreamScope, skel_setStream, skel_newResourceScope]
  exact h.allocStream _ hp (.opened rfl rfl)

theorem skel_attempt :
    (σ.attempt c).skel = (σ.newConn c).skel :=
  skel_of_acquire (Prod.ext rfl rfl)

section

variable (h : σ.skel.Shape)
include h

theorem shape_openConnection (dir : Direction) (usefd : Bool) (endpoint : Endpoint)
    (ip : Option Addr) : (σ.openConnection dir usefd endpoint ip).1.skel.Shape := by
  refine openConnection_induction (I := fun σ => σ.skel.Shape) (fun _ _ h => h) ?_ ?_ h dir usefd
    endpoint ip <;> intro σ c hc h
  · rw [skel_attempt]
    exact shape_newConn h hc
  · rw [skel_done, skel_attempt]
    exact shape_newConn h hc

theorem shape_openStream (dir : Direction) : (σ.openStream p dir).1.skel.Shape := by
  obtain ⟨hfound, hp⟩ := found_getPeerScope h p
  have hn : (σ.getPeerScope p).1.skel.Named (σ.getPeerScope p).2.scope
      (.peer (σ.getPeerScope p).2.peer) := by rw [hp]; exact hfound.named
  have hnew := shape_newStreamScope hfound.shape dir hn
  simp only [openStream]
  split
  · rename_i σ₁ heq
    rw [skel_of_acquire heq, skel_decRef]; exact hnew
  · rename_i σ₁ err heq
    rw [skel_done, skel_of_acquire heq, skel_decRef]; exact hnew

/-! ### Migrating -/

theorem shape_joinPeer {c₀ : ConnectionScope} (hc : σ.conns id = some c₀)
    {system transient : ScopeId}
    (hsys : system = if c.isAllowlisted then allowlistedSystem else Rcmgr.system) :
    (σ.joinPeer id c p system transient).1.skel.Shape := by
  obtain ⟨hfound, hp⟩ := found_getPeerScope h p
  simp only [joinPeer]
  split
  · rename_i σ₁ err heq
    rw [skel_decRef, skel_of_reserveForChild heq]; exact hfound.shape
  · rename_i σ₁ heq
    simp only [skel_setConn, skel_setEdges, skel_decRef, skel_releaseForChild,
      skel_of_reserveForChild heq]
    have hc' : (σ.getPeerScope p).1.skel.conns id = some c₀ := by
      rw [show (σ.getPeerScope p).1.skel.conns = _ from hfound.conns]; exact hc
    have hn : (σ.getPeerScope p).1.skel.Named (σ.getPeerScope p).2.scope
        (.peer (σ.getPeerScope p).2.peer) := by rw [hp]; exact hfound.named
    refine hfound.shape.moveConn hc' ?_
    rw [hsys]
    exact .peered rfl hn

/-- The transfer from the allowlist, whose beginning clears the flag and the edges. -/
theorem shape_transfer (hc : σ.conns id = some c) (hpeer : c.peer = none) :
    ((σ.setConn id { c with isAllowlisted := false }).transferAllowedToStandard id).1.skel.Shape ∧
      ((σ.setConn id { c with isAllowlisted := false }).transferAllowedToStandard id).1.conns id =
        some { c with isAllowlisted := false } := by
  obtain ⟨n, k, rfl, -⟩ := h.conn hc
  have hleft : ((σ.setConn (.node n) { c with isAllowlisted := false }).leaveEdges (.node n)).skel =
      (σ.skel.setEdges (.node n) []).setConn (.node n) { c with isAllowlisted := false } := by
    simp only [leaveEdges, skel_setEdges, skel_releaseEdges]; rfl
  have hin : ((σ.skel.setEdges (.node n) []).setConn (.node n)
      { c with isAllowlisted := false }).conns (.node n) = some { c with isAllowlisted := false } := by
    simp [Skeleton.setConn]
  simp only [transferAllowedToStandard]
  split
  · rename_i σ₁ err heq
    have hsk := (skel_of_reserveForChild heq).trans hleft
    rw [hsk]
    exact ⟨h.moveConn hc (.left hpeer rfl), (congrArg (Skeleton.conns · (.node n)) hsk).trans hin⟩
  · rename_i σ₁ heq
    have hsk := (skel_of_reserveForChild heq).trans hleft
    split
    · rename_i σ₂ err heq'
      have hsk' : σ₂.skel = _ := (skel_of_reserveForChild heq').trans ((skel_incRef _).trans hsk)
      simp only [skel_decRef, skel_releaseForChild, hsk']
      exact ⟨h.moveConn hc (.left hpeer rfl), (congrArg (Skeleton.conns · (.node n)) hsk').trans hin⟩
    · rename_i σ₂ heq'
      have hsk' : σ₂.skel = _ := (skel_of_reserveForChild heq').trans ((skel_incRef _).trans hsk)
      simp only [skel_setEdges, skel_incRef, hsk']
      refine ⟨?_, (congrArg (Skeleton.conns · (.node n)) hsk').trans hin⟩
      have hmoved : ((σ.skel.setEdges (.node n) [system, transient]).setConn (.node n)
          { c with isAllowlisted := false }).Shape := h.moveConn hc (.transferred hpeer rfl)
      have heq : ((σ.skel.setEdges (.node n) []).setConn (.node n)
          { c with isAllowlisted := false }).setEdges (.node n) [system, transient] =
          (σ.skel.setEdges (.node n) [system, transient]).setConn (.node n)
            { c with isAllowlisted := false } := by
        simp [Skeleton.setEdges, Skeleton.setConn]
      rw [heq]; exact hmoved

theorem shape_setPeer (id : ScopeId) (p : PeerID) : (σ.setPeer id p).1.skel.Shape := by
  refine setPeer_induction (I := fun τ => τ.skel.Shape) h
    (fun c _ _ hc _ hsys _ => shape_joinPeer h hc hsys) ?_
  intro c τ err hc hnone hal hallowed heq
  obtain ⟨hshape, hconn⟩ := shape_transfer h hc hnone
  rw [heq] at hshape hconn
  exact ⟨fun _ => hshape, fun _ => shape_joinPeer hshape hconn (by simp)⟩

end

@[simp] theorem skel_leaves (ρ : Manager) (xs : List ScopeId) :
    (xs.foldl (fun τ x => (τ.releaseForChild x st).decRef x) ρ).skel = ρ.skel := by
  induction xs generalizing ρ with
  | nil => rfl
  | cons x xs ih => rw [foldl_cons, ih, skel_decRef, skel_releaseForChild]

section

variable (h : σ.skel.Shape)
include h

theorem shape_enroll (he : σ.Enrolling n s t) : (σ.enroll (.node n) s t).1.skel.Shape := by
  simp only [enroll]
  split
  · rename_i σ₁ err heq
    rw [skel_decRef, skel_of_reserveForChild heq, skel_incRef]
    exact (found_lookupSector h t).shape
  · rename_i σ₁ heq
    obtain ⟨hfound, hfound'⟩ := found_second h heq s.peer.peer
    split
    · rename_i σ₂ err heq'
      simp only [skel_decRef, skel_releaseForChild, skel_of_reserveForChild heq', skel_incRef]
      exact hfound'.shape
    · rename_i σ₂ heq'
      simp only [skel_setStream, skel_setEdges, skel_leaves, skel_of_reserveForChild heq',
        skel_incRef]
      have hext := hfound.ext.trans hfound'.ext
      refine hfound'.shape.moveStream (s := s) ?_ ?_
        (he.enters hext (hfound.named.mono hfound'.ext) hfound'.named)
      · exact (congrFun (hfound'.streams.trans hfound.streams) _).trans he.stream
      · cases t <;> exact he.peer.mono hext

theorem shape_setSector (id : ScopeId) (t : Sector) : (σ.setSector id t).1.skel.Shape := by
  obtain ⟨err, heq⟩ | ⟨n, s, rfl, he, heq⟩ := setSector_cases h id t
  · rw [heq]; exact h
  · rw [heq]; exact shape_enroll h he

/-! ### Collecting and viewing -/

theorem shape_vacate (S : ScopeId) (slot : Slot) : ((σ.doneUnlocked S).vacate slot).skel.Shape := by
  cases slot with
  | protocol proto =>
    rw [vacate, skel_enterProtocol, skel_doneUnlocked]
    exact h.enterProtocol fun _ hx => by cases hx
  | peer p =>
    rw [vacate, skel_enterPeer, skel_doneUnlocked]
    exact h.enterPeer fun _ hx => by cases hx
  | inside owner p =>
    rw [vacate, skel_enterSubPeer, skel_doneUnlocked]
    exact h.enterSubPeer fun _ hx => by cases hx

theorem shape_viewBegin (target : ViewTarget) : (σ.viewBegin target).skel.Shape := by
  have hsector : ∀ t, ((σ.lookupSector t).1.incRef (σ.lookupSector t).2).skel.Shape :=
    fun t => by rw [skel_incRef]; exact (found_lookupSector h t).shape
  cases target with
  | service svc => exact hsector (.service svc)
  | protocol proto => exact hsector (.protocol proto)
  | peer p => exact (found_getPeerScope h p).1.shape

theorem shape_viewEnd : (σ.viewEnd id).skel.Shape := by
  simp only [viewEnd]
  split
  · have hsk : { σ.decRef id with views := σ.views.erase id }.skel = σ.skel := skel_decRef σ id
    rw [hsk]; exact h
  · exact h

/-- Every call keeps the shape. -/
theorem shape_step (op : Op) : (σ.step op).skel.Shape := by
  cases op with
  | openConnection dir usefd endpoint => exact shape_openConnection h dir usefd endpoint _
  | openConnectionNoIP dir usefd endpoint => exact shape_openConnection h dir usefd endpoint none
  | openStream p dir => exact shape_openStream h dir
  | setPeer id p => exact shape_setPeer h id p
  | setProtocol id proto => exact shape_setSector h id (.protocol proto)
  | setService id svc => exact shape_setSector h id (.service svc)
  | beginSpan id =>
    simp only [step, exec]
    split
    · exact skel_beginSpan σ id ▸ h
    · exact h
  | reserveMemory id size prio => exact skel_acquire σ _ id ▸ h
  | releaseMemory id size => exact skel_releaseMemory σ size ▸ h
  | done id =>
    simp only [step, exec]
    split
    · rw [skel_done]; exact h
    · exact h
  | viewBegin target => exact shape_viewBegin h target
  | viewEnd id => exact shape_viewEnd h
  | gc order =>
    exact gc_induction (I := fun τ => τ.skel.Shape) (fun _ slot S hτ _ _ => shape_vacate hτ S slot) h order

end

theorem shape_newResourceManager (limits : Limiter) (cl : ConnLimiter) (al : Allowlist)
    (stickyProto : ProtocolID → Bool) (stickyPeer : PeerID → Bool) :
    (newResourceManager limits cl al stickyProto stickyPeer).skel.Shape := by
  have hlt : ∀ n, n < 4 → n < (newResourceManager limits cl al stickyProto stickyPeer).skel.next :=
    fun _ hn => hn
  refine
    { system := ⟨0, rfl, hlt 0 (by omega), rfl⟩
      transient := ⟨1, rfl, hlt 1 (by omega), rfl⟩
      allowlistedSystem := ⟨2, rfl, hlt 2 (by omega), rfl⟩
      allowlistedTransient := ⟨3, rfl, hlt 3 (by omega), rfl⟩
      tables :=
        { svc := fun h => by cases h
          proto := fun h => by cases h
          peer := fun h => by cases h
          subPeer := fun h => by cases h }
      conns := fun h => absurd rfl h
      streams := fun h => absurd rfl h
      node := ?_ }
  intro n hn
  have hcases : n = 0 ∨ n = 1 ∨ n = 2 ∨ n = 3 := by
    have : n < 4 := hn
    omega
  rcases hcases with rfl | rfl | rfl | rfl
  · exact .shared rfl rfl trivial mem_cons_self
  · exact .shared rfl rfl trivial (mem_cons_of_mem _ mem_cons_self)
  · exact .shared rfl rfl trivial mem_cons_self
  · exact .shared rfl rfl trivial
      (mem_cons_of_mem _ (mem_cons_of_mem _ mem_cons_self))

end Manager

end Dep2p.Rcmgr
