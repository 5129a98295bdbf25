import Dep2p.Rcmgr.ConnCounts
import Dep2p.Rcmgr.Refs
import Dep2p.Rcmgr.Reserve

/- The connections of the manager in the books of the connection limiter (`rcmgr.go`).

   `OpenConnection` registers the address of the endpoint before it opens a scope, and
   `connectionScope.Done` removes it. When the standard scopes refuse, the first scope is
   closed, which removes the address, and an endpoint of the allowlist is tried again with
   a scope that has none: that connection is open and not counted. `Covered` are the
   calls that do not come to this; in a run of such calls the limiter counts the address
   of every open connection once.

   What is proved:
     `connections_counted` — the counts in every state of such a run. -/
namespace Dep2p.Rcmgr

open Lib List ConnLimiter

variable {live live' : List Addr}

theorem FamilyLimits.Tracks.perm {t : FamilyLimits} {mine : Addr → Bool}
    (h : t.Tracks mine live) (hp : live.Perm live') : t.Tracks mine live' where
  length := h.length
  count := fun i => by rw [h.count, hp.countP_eq]
  le := h.le
  levels := h.levels.imp fun limit table hl =>
    ⟨fun p => by rw [hl.count, hp.countP_eq], hl.le⟩

theorem ConnLimiter.Tracks.perm {cl : ConnLimiter} (h : cl.Tracks live)
    (hp : live.Perm live') : cl.Tracks live' := fun v6 => (h v6).perm hp

namespace Manager

/-- The address of the `n`-th scope, if it is an open connection that has one. -/
def liveIP (σ : Manager) (n : Nat) : Option Addr :=
  if (σ.scopes (.node n)).done then none else (σ.conns (.node n)).bind (·.endpoint.toIP)

/-- The addresses of the open connections. -/
def liveIPs (σ : Manager) : List Addr := (range σ.next).filterMap σ.liveIP

/-- The limiter counts the open connections and the addresses in `pending`, which are
registered for a connection that is not there yet. -/
structure Booked (nets : Bool → List NetworkPrefixLimit) (subnets : Bool → List ConnLimitPerSubnet)
    (pending : List Addr) (σ : Manager) : Prop where
  tracks : σ.connLimiter.Tracks (pending ++ σ.liveIPs)
  limits : σ.connLimiter.HasLimits nets subnets
  next : 4 ≤ σ.next
  created : ∀ id c, σ.conns id = some c → ∃ n < σ.next, id = .node n
  ip : ∀ n c, (σ.scopes (.node n)).done = false → σ.conns (.node n) = some c →
    c.ip = c.endpoint.toIP

section Books

variable {nets : Bool → List NetworkPrefixLimit} {subnets : Bool → List ConnLimitPerSubnet}
  {σ τ : Manager} {α β : Type}

/-! ## Reserving and closing -/

/-- A reservation changes counters only. -/
theorem Booked.acquire (h : Booked nets subnets [] σ) (r : Reservation) (id : ScopeId) :
    Booked nets subnets [] (σ.acquire r id).1 := by
  have hdone : ∀ x, ((σ.acquire r id).1.scopes x).done = (σ.scopes x).done :=
    fun x => Graph.acquire_keep uncounted_done r σ.scopes x
  have hlive : (σ.acquire r id).1.liveIPs = σ.liveIPs := by
    have hip : (σ.acquire r id).1.liveIP = σ.liveIP := by
      funext n
      unfold liveIP
      rw [hdone]
      rfl
    unfold liveIPs
    rw [hip]
    rfl
  refine ⟨?_, h.limits, h.next, h.created, fun n c hopen hc => h.ip n c (hdone _ ▸ hopen) hc⟩
  rw [hlive]
  exact h.tracks

theorem liveIP_doneUnlocked (id : ScopeId) (n : Nat) :
    (σ.doneUnlocked id).liveIP n = if .node n = id then none else σ.liveIP n := by
  unfold liveIP
  rw [doneUnlocked_done]
  split <;> rfl

theorem filterMap_singleton (f : α → Option β) (a : α) :
    [a].filterMap f = (f a).toList := by
  cases h : f a with
  | none => rw [filterMap_cons_none h]; rfl
  | some b => rw [filterMap_cons_some h]; rfl

/-- Clearing one entry takes its value out of the list. -/
theorem filterMap_perm_clear [DecidableEq α] {l : List α} (hn : l.Nodup)
    {f f' : α → Option β} {a : α} (ha : a ∈ l) (hclear : f' a = none)
    (hsame : ∀ b, b ≠ a → f' b = f b) :
    (l.filterMap f).Perm ((f a).toList ++ l.filterMap f') := by
  have hrest : (l.erase a).filterMap f' = (l.erase a).filterMap f :=
    filterMap_congr fun b hb => hsame b (hn.mem_erase_iff.mp hb).1
  have hf := (perm_cons_erase ha).filterMap f
  have hf' := (perm_cons_erase ha).filterMap f'
  rw [filterMap_cons_none hclear, hrest] at hf'
  rw [← singleton_append, filterMap_append] at hf
  exact hf.trans (hf'.symm.append_left _)

/-- `Done` removes the address it closes. -/
theorem Booked.done (h : Booked nets subnets [] σ) (id : ScopeId) :
    Booked nets subnets [] (σ.done id) := by
  have hip : ∀ n c, ((σ.doneUnlocked id).scopes (.node n)).done = false →
      σ.conns (.node n) = some c → c.ip = c.endpoint.toIP := by
    intro n c hopen hc
    rw [doneUnlocked_done] at hopen
    split at hopen
    · exact absurd hopen (by decide)
    · exact h.ip n c hopen hc
  unfold Manager.done
  cases hconn : σ.conns id with
  | none =>
    -- a scope that is no connection has no address
    have hlive : (σ.doneUnlocked id).liveIPs = σ.liveIPs := by
      have hsame : (σ.doneUnlocked id).liveIP = σ.liveIP := by
        funext n
        rw [liveIP_doneUnlocked]
        split
        · rename_i heq
          simp [liveIP, heq, hconn]
        · rfl
      unfold liveIPs
      rw [hsame]
      rfl
    refine ⟨?_, h.limits, h.next, h.created, hip⟩
    rw [hlive]
    exact h.tracks
  | some c =>
    obtain ⟨n, hn, rfl⟩ := h.created id c hconn
    unfold connDone
    by_cases hdone : (σ.scopes (.node n)).done = true
    · simp only [hdone]
      exact h
    · simp only [hdone]
      have hopen : (σ.scopes (.node n)).done = false := by simpa using hdone
      have hliveIP : σ.liveIP n = c.ip := by
        rw [h.ip n c hopen hconn]
        simp [liveIP, hopen, hconn]
      have hperm : σ.liveIPs.Perm (c.ip.toList ++ (σ.doneUnlocked (.node n)).liveIPs) := by
        rw [← hliveIP]
        refine filterMap_perm_clear nodup_range (mem_range.mpr hn) ?_ fun m hm => ?_
        · rw [liveIP_doneUnlocked, if_pos rfl]
        · rw [liveIP_doneUnlocked, if_neg (by simpa using hm)]
      have htracks : σ.connLimiter.Tracks (c.ip.toList ++ (σ.doneUnlocked (.node n)).liveIPs) :=
        h.tracks.perm hperm
      cases hcip : c.ip with
      | none =>
        rw [hcip] at htracks
        exact ⟨htracks, h.limits, h.next, h.created, hip⟩
      | some ip =>
        rw [hcip] at htracks
        have hrm : (σ.connLimiter.rmConn ip).Tracks _ := htracks.rmConn mem_cons_self
        simp only [Option.toList_some, singleton_append, erase_cons_head] at hrm
        exact ⟨hrm, h.limits.rmConn, h.next, h.created, hip⟩

/-! ## Opening -/

variable {endpoint : Endpoint}

/-- The new scope takes the pending address. -/
theorem Booked.newConnectionScope (h : Booked nets subnets endpoint.toIP.toList σ) (dir : Direction)
    (usefd : Bool) :
    Booked nets subnets [] (σ.newConnectionScope dir usefd endpoint endpoint.toIP) := by
  have hdone : ∀ x, ((σ.newConnectionScope dir usefd endpoint endpoint.toIP).scopes x).done =
      if x = σ.fresh then false else (σ.scopes x).done := by
    intro x
    have hmarks := congrArg Prod.fst (congrFun
      (marks_newResourceScope σ.nextConnId σ.limits.getConnLimits [transient, system]
        (.conn (σ.connId + 1))) x)
    rw [Function.update_apply] at hmarks
    exact hmarks.trans (apply_ite Prod.fst _ _ _)
  have hconns : ∀ x, (σ.newConnectionScope dir usefd endpoint endpoint.toIP).conns x =
      if x = σ.fresh then
        some { dir, usefd, endpoint, ip := endpoint.toIP }
      else σ.conns x := by
    intro x
    exact Function.update_apply _ _ _ _
  have hnew : (σ.newConnectionScope dir usefd endpoint endpoint.toIP).liveIP σ.next =
      endpoint.toIP := by
    simp [liveIP, hdone, hconns, fresh]
  have hold : ∀ n ∈ range σ.next,
      (σ.newConnectionScope dir usefd endpoint endpoint.toIP).liveIP n = σ.liveIP n := by
    intro n hn
    have hne : .node n ≠ σ.fresh := by
      intro heq
      have := ScopeId.node.inj heq
      have := mem_range.mp hn
      omega
    unfold liveIP
    rw [hdone, hconns, if_neg hne, if_neg hne]
  have hlive : (σ.newConnectionScope dir usefd endpoint endpoint.toIP).liveIPs =
      σ.liveIPs ++ endpoint.toIP.toList := by
    have hnext : (σ.newConnectionScope dir usefd endpoint endpoint.toIP).next = σ.next + 1 := rfl
    unfold liveIPs
    rw [hnext, range_succ, filterMap_append, filterMap_congr hold]
    rw [filterMap_singleton, hnew]
  constructor
  · rw [hlive]
    exact h.tracks.perm perm_append_comm
  · exact h.limits
  · exact Nat.le_succ_of_le h.next
  · intro id c hc
    rw [hconns] at hc
    split at hc
    · rename_i heq
      exact ⟨σ.next, Nat.lt_succ_self _, heq⟩
    · obtain ⟨n, hn, heq⟩ := h.created id c hc
      exact ⟨n, Nat.lt_succ_of_lt hn, heq⟩
  · intro n c hopen hc
    rw [hconns] at hc
    rw [hdone] at hopen
    split at hc
    · obtain rfl := Option.some.inj hc
      rfl
    · rename_i hne
      rw [if_neg hne] at hopen
      exact h.ip n c hopen hc

/-- The standard scopes have room for a connection. -/
structure StandardRoom (σ : Manager) (dir : Direction) (usefd : Bool) : Prop where
  conn : ∃ rc, ({ limit := σ.limits.getConnLimits } : Resources).addConn dir usefd = .ok rc
  transient : (σ.scopes transient).Admits (.conn dir usefd)
  system : (σ.scopes system).Admits (.conn dir usefd)

variable {dir : Direction} {usefd : Bool}

/-- With room in the standard scopes the first attempt succeeds. -/
theorem StandardRoom.opens (h : σ.StandardRoom dir usefd) (hnext : 4 ≤ σ.next)
    (ip : Option Addr) :
    ((σ.newConnectionScope dir usefd endpoint ip).acquire (.conn dir usefd) σ.fresh).2 = none := by
  have hscopes : ∀ x, (σ.newConnectionScope dir usefd endpoint ip).scopes x =
      if x = σ.fresh then
        { rc := { limit := σ.limits.getConnLimits }, edges := [Rcmgr.transient, Rcmgr.system],
          name := .conn (σ.connId + 1) }
      else Store.modifyEach (·.incRef) [Rcmgr.transient, Rcmgr.system] σ.scopes x :=
    newResourceScope_scopes σ.nextConnId _ _ _
  have hpath : (σ.newConnectionScope dir usefd endpoint ip).scopes.path σ.fresh =
      [σ.fresh, Rcmgr.transient, Rcmgr.system] := by
    change σ.fresh :: ((σ.newConnectionScope dir usefd endpoint ip).scopes σ.fresh).edges = _
    rw [hscopes, if_pos rfl]
  have hne : ∀ m, m < 4 → .node m ≠ σ.fresh := by
    intro m hm heq
    have := ScopeId.node.inj heq
    omega
  have hnodup : ((σ.newConnectionScope dir usefd endpoint ip).scopes.path σ.fresh).Nodup := by
    rw [hpath]
    refine nodup_cons.mpr ⟨fun hmem => ?_, by decide⟩
    rcases mem_cons.mp hmem with heq | hmem
    · exact hne 1 (by decide) heq.symm
    · exact hne 0 (by decide) (mem_singleton.mp hmem).symm
  -- a new reference does not change what a scope admits
  have hincRef : ∀ m, m < 4 → (σ.scopes (.node m)).Admits (.conn dir usefd) →
      ((σ.newConnectionScope dir usefd endpoint ip).scopes (.node m)).Admits (.conn dir usefd) := by
    intro m hm hadm
    rw [hscopes, if_neg (hne m hm)]
    refine Store.modifyEach_induction
      (fun s hs => ?_) _ hadm
    obtain ⟨hopen, hrc⟩ := ResourceScope.admits_iff.mp hs
    exact ResourceScope.admits_iff.mpr ⟨hopen, hrc⟩
  have hfresh : ((σ.newConnectionScope dir usefd endpoint ip).scopes σ.fresh).Admits
      (.conn dir usefd) := by
    rw [hscopes, if_pos rfl]
    exact ResourceScope.admits_iff.mpr ⟨rfl, h.conn⟩
  have hall : ∀ x ∈ (σ.newConnectionScope dir usefd endpoint ip).scopes.path σ.fresh,
      ((σ.newConnectionScope dir usefd endpoint ip).scopes x).Admits (.conn dir usefd) := by
    rw [hpath]
    exact forall_mem_cons.mpr ⟨hfresh, forall_mem_cons.mpr ⟨hincRef 1 (by decide) h.transient,
      forall_mem_singleton.mpr (hincRef 0 (by decide) h.system)⟩⟩
  exact congrArg Prod.snd ((Graph.acquire_charges _ _ hnodup).accepts hall)

/-- The connection is opened in the standard scopes or refused. -/
def Covered (σ : Manager) : Op → Prop
  | .openConnection dir usefd endpoint =>
    σ.allowlist.allowed endpoint = false ∨ σ.StandardRoom dir usefd
  | .done _ => True
  | _ => False

theorem Booked.openConnectionScope (h : Booked nets subnets endpoint.toIP.toList σ)
    (hok : σ.allowlist.allowed endpoint = false ∨ σ.StandardRoom dir usefd) :
    Booked nets subnets [] (σ.openConnectionScope dir usefd endpoint endpoint.toIP).1 := by
  have hnew := (h.newConnectionScope dir usefd).acquire (.conn dir usefd) σ.fresh
  have hroom : σ.StandardRoom dir usefd →
      ((σ.newConnectionScope dir usefd endpoint endpoint.toIP).acquire (.conn dir usefd)
        σ.fresh).2 = none := fun hr => hr.opens h.next endpoint.toIP
  unfold Manager.openConnectionScope
  cases hacq : (σ.newConnectionScope dir usefd endpoint endpoint.toIP).acquire (.conn dir usefd)
      σ.fresh with
  | mk τ err =>
    rw [hacq] at hnew hroom
    cases err with
    | none => simpa only [hacq] using hnew
    | some err =>
      have hallowed : τ.allowlist.allowed endpoint = false := by
        rcases hok with hno | hr
        · obtain rfl : _ = τ := congrArg Prod.fst hacq
          exact hno
        · exact absurd (hroom hr) (by simp)
      simp only [hacq, hallowed, Bool.and_false]
      exact hnew.done σ.fresh

theorem Booked.openConnection (h : Booked nets subnets [] σ)
    (hok : σ.allowlist.allowed endpoint = false ∨ σ.StandardRoom dir usefd) :
    Booked nets subnets [] (σ.openConnection dir usefd endpoint endpoint.toIP).1 := by
  cases hip : endpoint.toIP with
  | none =>
    have hopened : Booked nets subnets []
        (σ.openConnectionScope dir usefd endpoint endpoint.toIP).1 :=
      openConnectionScope (by rw [hip]; exact h) hok
    rw [hip] at hopened
    exact hopened
  | some addr =>
    have hadd := h.tracks.addConn addr
    have hlimits := h.limits.addConn addr
    unfold Manager.openConnection
    cases hcl : σ.connLimiter.addConn addr with
    | mk cl ok =>
      rw [hcl] at hadd hlimits
      cases ok with
      | false =>
        simp only [hcl]
        exact ⟨hadd, hlimits, h.next, h.created, h.ip⟩
      | true =>
        simp only [hcl]
        have hpending : Booked nets subnets endpoint.toIP.toList (σ.setConnLimiter cl) := by
          rw [hip]
          exact ⟨hadd, hlimits, h.next, h.created, h.ip⟩
        have hok' : (σ.setConnLimiter cl).allowlist.allowed endpoint = false ∨
            (σ.setConnLimiter cl).StandardRoom dir usefd :=
          hok.imp_right fun hr => ⟨hr.conn, hr.transient, hr.system⟩
        have hopened := hpending.openConnectionScope hok'
        rw [hip] at hopened
        exact hopened

theorem Booked.step (h : Booked nets subnets [] σ) {op : Op} (hok : σ.Covered op) :
    Booked nets subnets [] (σ.step op) := by
  cases op with
  | openConnection dir usefd endpoint => exact h.openConnection hok
  | done id =>
    change Booked nets subnets [] (if σ.closable id then σ.done id else σ)
    split
    · exact h.done id
    · exact h
  | _ => exact hok.elim

theorem booked_newResourceManager (limits : Limiter) (allowlist : Allowlist)
    (stickyProto : ProtocolID → Bool) (stickyPeer : PeerID → Bool) :
    Booked nets subnets [] (newResourceManager limits (configured nets subnets) allowlist
      stickyProto stickyPeer) where
  tracks := tracks_configured nets subnets
  limits := hasLimits_configured
  next := le_refl 4
  created := fun id c hc => by cases hc
  ip := fun n c _ hc => by cases hc

end Books

end Manager

/-- In every run of `OpenConnection` and `Done` calls none of which opens a connection on
the allowlist, the limiter counts the address of every open connection exactly once. -/
theorem connections_counted (nets : Bool → List NetworkPrefixLimit)
    (subnets : Bool → List ConnLimitPerSubnet) (limits : Limiter) (allowlist : Allowlist)
    (stickyProto : ProtocolID → Bool) (stickyPeer : PeerID → Bool) (σ : Manager)
    (h : Reach Manager.step Manager.Covered
      (Manager.newResourceManager limits (ConnLimiter.configured nets subnets) allowlist stickyProto
        stickyPeer) σ) (v6 : Bool) :
    (σ.connLimiter.family v6).Exact (nets v6) (ConnLimiter.mine v6) σ.liveIPs := by
  have hbooked : Manager.Booked nets subnets [] σ := h.invariant
    (Manager.booked_newResourceManager limits allowlist stickyProto stickyPeer)
    fun _ _ _ hok hinv => hinv.step hok
  exact (hbooked.tracks v6).exact (hbooked.limits v6).1

/-- Two connections of one address, the first of which is closed. -/
theorem connections_counted_two :
    let σ := [.openConnection .inbound true ⟨some (.v4 1#32)⟩,
        .openConnection .inbound true ⟨some (.v4 1#32)⟩, .done (.node 4)].foldl .step
      (Manager.newResourceManager (.uniform fourLimit)
        (configured (fun _ => []) fun _ => [⟨32, 8⟩]) {} (fun _ => false) fun _ => false)
    σ.liveIPs = [.v4 1#32] ∧
      (σ.connLimiter.family false).Exact [] (mine false) σ.liveIPs := by
  refine ⟨?_, connections_counted (fun _ => []) (fun _ => [⟨32, 8⟩]) (.uniform fourLimit) {}
    (fun _ => false) (fun _ => false) _ (.foldl .init ?_) false⟩
  · simp only [configured]
    decide +kernel
  · simp only [configured]
    exact ⟨.inl (by decide +kernel), .inl (by decide +kernel), trivial, trivial⟩

/-- No connection fits into the system scope, the address is on the allowlist, and a limit
allows one connection for each address: both calls succeed, and nothing is counted. -/
theorem allowlisted_not_counted :
    let σ := [.openConnection .inbound true ⟨some (.v4 1#32)⟩,
        .openConnection .inbound true ⟨some (.v4 1#32)⟩].foldl .step
      (Manager.newResourceManager
        { Limiter.uniform fourLimit with getSystemLimits := { fourLimit with conns := 0 } }
        (configured (fun _ => []) fun _ => [⟨32, 1⟩])
        { allowedNetworks := [⟨.v4 1#32, 32⟩] } (fun _ => false) fun _ => false)
    σ.liveIPs = [.v4 1#32, .v4 1#32] ∧
      (σ.connLimiter.family false).subnetCount 0 ⟨.v4 1#32, 32⟩ = 0 ∧
      ¬ (σ.connLimiter.family false).Exact [] (mine false) σ.liveIPs := by
  refine ⟨by decide +kernel, by decide +kernel, fun h => ?_⟩
  have hcount := h.subnets 0 ⟨32, 1⟩ (by decide +kernel) ⟨.v4 1#32, 32⟩
  exact absurd hcount (by decide +kernel)

end Dep2p.Rcmgr
