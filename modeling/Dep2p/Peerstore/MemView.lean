import Dep2p.Peerstore.MemIndex

/- The address book in memory as a map from addresses to TTLs and expiries.

   As long as every TTL is below that of a connected peer, each call of the book changes
   its `view` in a simple way: the addresses it names, or those of a peer with a given
   TTL, get new values. The heap, the pointers and the order of the loops are gone. -/
namespace Dep2p.Peerstore

open Lib List Option PeerAddrs

/-- A nanosecond count of whole seconds. -/
def WholeSeconds (d : Int) : Prop := 1000000000 ∣ d

instance (d : Int) : Decidable (WholeSeconds d) := inferInstanceAs (Decidable (_ ∣ _))

/-- An entry below the connected TTL that expires at a whole second. -/
structure ExpiringAddr.Timed (e : ExpiringAddr) : Prop where
  ttl : ¬ e.isConnected
  expiry : WholeSeconds e.expiry

/-- The book is indexed, and its entries are timed. -/
structure PeerAddrs.Timed (pa : PeerAddrs) : Prop where
  indexed : pa.Indexed
  entries : ∀ k e, pa.view k = some e → e.Timed

namespace MemoryAddrBook

variable {pa : PeerAddrs} {p : PeerID} {ttl exp now cap : Int} {m : Option Multiaddr}
  {addr : Multiaddr} {e : ExpiringAddr} {k : PeerID × Multiaddr} {a : Nat}

theorem view_of_get (h : pa.addrs.get k = some a) : pa.view k = some (pa.entry a) := by
  unfold view
  rw [h]
  rfl

theorem view_of_get_none (h : pa.addrs.get k = none) : pa.view k = none := by
  unfold view
  rw [h]
  rfl

theorem key_of_view (hi : pa.Indexed) (h : pa.view k = some e) : e.key = k := by
  obtain ⟨a, ha, rfl⟩ := map_eq_some_iff.mp h
  exact (hi.home k a ha).1

/-- A book that differs from a timed one in timed entries is timed. -/
theorem timed_of_view {pa' : PeerAddrs} (h : pa.Timed) (hi : pa'.Indexed)
    (hview : ∀ k e, pa'.view k = some e → pa.view k = some e ∨ e.Timed) : pa'.Timed := by
  refine ⟨hi, ?_⟩
  intro k e he
  rcases hview k e he with hold | hnew
  · exact h.entries k e hold
  · exact hnew

/-! ## Adding -/

/-- What `AddAddrs` makes of the entry of an address. -/
def addedTo (p : PeerID) (ttl exp : Int) (addr : Multiaddr) : Option ExpiringAddr → ExpiringAddr
  | none => { addr, expiry := exp, ttl, peer := p }
  | some e =>
    { e with
      ttl := if e.ttl < ttl then ttl else e.ttl
      expiry := if e.expiry < exp then exp else e.expiry }

theorem timed_addedTo (httl : ¬ ttlIsConnected ttl) (hexp : WholeSeconds exp) {o : Option ExpiringAddr}
    (ho : ∀ e, o = some e → e.Timed) : (addedTo p ttl exp addr o).Timed := by
  cases o with
  | none => exact ⟨httl, hexp⟩
  | some e =>
    obtain ⟨h₁, h₂⟩ := ho e rfl
    refine ⟨?_, ?_⟩
    · unfold ExpiringAddr.isConnected addedTo
      dsimp only
      split
      · exact httl
      · exact h₁
    · unfold addedTo
      dsimp only
      split
      · exact hexp
      · exact h₂

theorem view_addOne (hi : pa.Indexed) (hm : ownAddr p m = some addr) (k : PeerID × Multiaddr) :
    (addOne p ttl exp pa m).view k =
      if k = (p, addr) then some (addedTo p ttl exp addr (pa.view k)) else pa.view k := by
  unfold addOne
  rw [hm]
  dsimp only
  cases hf : pa.findAddr p addr with
  | none =>
    rw [hi.view_insert]
    split
    · rename_i hk
      have hk : k = (p, addr) := hk
      rw [if_pos hk, hk, view_of_get_none hf]
      rfl
    · rename_i hk
      have hk : k ≠ (p, addr) := hk
      rw [if_neg hk]
  | some a =>
    dsimp only
    have hv := view_of_get hf
    split
    · rw [hi.view_touch hf]
      split
      · rename_i hk
        rw [hk, hv]
        rfl
      · rfl
    · -- nothing to raise: the entry has the larger values already
      rename_i hsame
      rw [not_or] at hsame
      split
      · rename_i hk
        rw [hk, hv]
        simp [addedTo, hsame.1, hsame.2]
      · rfl

theorem skip_addOne (hm : ownAddr p m = none) : addOne p ttl exp pa m = pa := by
  unfold addOne
  rw [hm]

theorem timed_addOne (h : pa.Timed) (httl : ¬ ttlIsConnected ttl) (hexp : WholeSeconds exp)
    : (addOne p ttl exp pa m).Timed := by
  cases hm : ownAddr p m with
  | none =>
    rw [skip_addOne hm]
    exact h
  | some addr =>
    apply timed_of_view h (indexed_addOne h.indexed m)
    intro k e he
    rw [view_addOne h.indexed hm] at he
    split at he
    · right
      rw [← some.inj he]
      exact timed_addedTo httl hexp fun e => h.entries _ e
    · exact .inl he

/-! ## Setting -/

theorem view_setOne (h : pa.Timed) (hpos : 0 < ttl) (hcap : (pa.numUnconnectedAddrs : Int) < cap)
    (hm : ownAddr p m = some addr) (k : PeerID × Multiaddr) :
    (setOne cap p ttl exp pa m).view k =
      if k = (p, addr) then some { addr, expiry := exp, ttl, peer := p } else pa.view k := by
  have hroom : ¬ cap ≤ (pa.numUnconnectedAddrs : Int) := not_le.mpr hcap
  unfold setOne
  rw [hm]
  dsimp only
  cases hf : pa.findAddr p addr with
  | none =>
    simp only [hpos, hroom, and_false]
    exact h.indexed.view_insert k
  | some a =>
    simp only [hpos, if_true, hroom, and_false, if_false]
    rw [h.indexed.view_touch hf]
    have hpeer : (pa.entry a).peer = p := congrArg Prod.fst (h.indexed.home _ a hf).1
    split
    · rw [hpeer]
    · rfl

/-- Setting an address below the connected TTL keeps the book timed, and takes nothing
from the heap. -/
theorem timed_setOne (h : pa.Timed) (hpos : 0 < ttl) (httl : ¬ ttlIsConnected ttl)
    (hexp : WholeSeconds exp) :
    (setOne cap p ttl exp pa m).Timed ∧
      pa.numUnconnectedAddrs ≤ (setOne cap p ttl exp pa m).numUnconnectedAddrs := by
  have hindexed : (setOne cap p ttl exp pa m).Indexed := by
    have hkeeps : SetKeeps cap p ttl pa [m] :=
      .inr (.inr (.inr fun _ _ _ _ e he => (h.entries _ e he).ttl))
    exact (setOne_keeps h.indexed hkeeps).1
  unfold setOne at hindexed ⊢
  split
  · exact ⟨h, Nat.le_refl _⟩
  rename_i addr hm
  split
  · rename_i a hf
    have hconn : ¬ (pa.entry a).isConnected := (h.entries _ _ (view_of_get hf)).ttl
    simp only [hm, hf, hpos, hconn] at hindexed ⊢
    refine ⟨timed_of_view h hindexed ?_, ?_⟩
    · intro k e he
      refine (view_cases (h.indexed.view_touch hf) he).imp_right ?_
      rintro rfl
      exact ⟨httl, hexp⟩
    · have hnewconn : ¬ ExpiringAddr.isConnected { pa.entry a with addr, expiry := exp, ttl } := httl
      exact Nat.le_of_eq (h.indexed.num_touch hf hconn hnewconn).symm
  · rename_i hf
    simp only [hm, hf, hpos, if_true] at hindexed ⊢
    split
    · exact ⟨h, Nat.le_refl _⟩
    rename_i hcap
    rw [if_neg hcap] at hindexed
    refine ⟨timed_of_view h hindexed ?_, ?_⟩
    · intro k e he
      refine (view_cases h.indexed.view_insert he).imp_right ?_
      rintro rfl
      exact ⟨httl, hexp⟩
    · exact h.indexed.num_insert

/-! ## Loops over the arguments -/

/-- A loop over arguments that name different addresses, whose body rewrites the entry of
the address it is given. `I` is an invariant of the loop, and `Q` what the body needs of
the book, known at the end of the loop and true before whatever it is true after. -/
theorem view_argLoop {body : PeerAddrs → Option Multiaddr → PeerAddrs}
    {f : Multiaddr → Option ExpiringAddr → ExpiringAddr} {I Q : PeerAddrs → Prop}
    (hI : ∀ pa m, I pa → I (body pa m))
    (hQ : ∀ pa m, I pa → Q (body pa m) → Q pa)
    (hskip : ∀ pa m, ownAddr p m = none → body pa m = pa)
    (hview : ∀ pa m addr, I pa → Q pa → ownAddr p m = some addr → ∀ k,
      (body pa m).view k = if k = (p, addr) then some (f addr (pa.view k)) else pa.view k)
    (args : List (Option Multiaddr)) (hn : (cleanAddrs args p).Nodup) (hi : I pa)
    (hq : Q (args.foldl body pa)) :
    I (args.foldl body pa) ∧ ∀ k, (args.foldl body pa).view k =
      if k.1 = p ∧ k.2 ∈ cleanAddrs args p then some (f k.2 (pa.view k)) else pa.view k := by
  -- what the body needs holds all along the loop
  have hback : ∀ (args : List (Option Multiaddr)) (pa : PeerAddrs), I pa →
      Q (args.foldl body pa) → Q pa := by
    intro args
    induction args with
    | nil => exact fun _ _ h => h
    | cons m rest ih => exact fun pa hi h => hQ pa m hi (ih _ (hI pa m hi) h)
  induction args generalizing pa with
  | nil =>
    refine ⟨hi, fun k => ?_⟩
    rw [if_neg fun h => (not_mem_nil h.2)]
    rfl
  | cons m rest ih =>
    rw [foldl_cons] at hq ⊢
    have hq₀ : Q pa := hQ pa m hi (hback rest _ (hI pa m hi) hq)
    cases hm : ownAddr p m with
    | none =>
      have hclean : cleanAddrs (m :: rest) p = cleanAddrs rest p := by
        unfold cleanAddrs
        rw [filterMap_cons, hm]
      rw [hclean] at hn ⊢
      rw [hskip pa m hm] at hq ⊢
      exact ih hn hi hq
    | some addr =>
      have hclean : cleanAddrs (m :: rest) p = addr :: cleanAddrs rest p := by
        unfold cleanAddrs
        rw [filterMap_cons, hm]
      rw [hclean, nodup_cons] at hn
      obtain ⟨hinv, hrest⟩ := ih hn.2 (hI pa m hi) hq
      refine ⟨hinv, fun k => ?_⟩
      rw [hrest k, hview pa m addr hi hq₀ hm k, hclean]
      by_cases hk : k = (p, addr)
      · -- the address just written is not named again
        rw [hk]
        simp only [true_and, hn.1, if_false, mem_cons_self]
      · have hmem : (k.1 = p ∧ k.2 ∈ addr :: cleanAddrs rest p) ↔
            (k.1 = p ∧ k.2 ∈ cleanAddrs rest p) := by
          constructor
          · intro hc
            obtain ⟨h₁, h₂⟩ := hc
            rcases mem_cons.mp h₂ with h | h
            · exact absurd (Prod.ext h₁ h) hk
            · exact ⟨h₁, h⟩
          · intro hc
            exact ⟨hc.1, mem_cons_of_mem _ hc.2⟩
        simp only [hk, if_false, hmem]

theorem skip_setOne (hm : ownAddr p m = none) : setOne cap p ttl exp pa m = pa := by
  unfold setOne
  rw [hm]

theorem view_addLoop (h : pa.Timed) (httl : ¬ ttlIsConnected ttl) (hexp : WholeSeconds exp)
    (args : List (Option Multiaddr)) (hn : (cleanAddrs args p).Nodup) :
    (args.foldl (addOne p ttl exp) pa).Timed ∧ ∀ k, (args.foldl (addOne p ttl exp) pa).view k =
      if k.1 = p ∧ k.2 ∈ cleanAddrs args p then some (addedTo p ttl exp k.2 (pa.view k))
      else pa.view k := by
  apply view_argLoop (Q := fun _ => True) _ _ _ _ args hn h trivial
  · exact fun pa m hp => timed_addOne hp httl hexp
  · exact fun _ _ _ _ => trivial
  · exact fun _ _ hm => skip_addOne hm
  · exact fun pa m addr hp _ hm => view_addOne hp.indexed hm

theorem view_setLoop (h : pa.Timed) (hpos : 0 < ttl) (httl : ¬ ttlIsConnected ttl)
    (hexp : WholeSeconds exp) (args : List (Option Multiaddr)) (hn : (cleanAddrs args p).Nodup)
    (hcap : ((args.foldl (setOne cap p ttl exp) pa).numUnconnectedAddrs : Int) < cap) :
    (args.foldl (setOne cap p ttl exp) pa).Timed ∧
      ∀ k, (args.foldl (setOne cap p ttl exp) pa).view k =
        if k.1 = p ∧ k.2 ∈ cleanAddrs args p then
          some { addr := k.2, expiry := exp, ttl, peer := p }
        else pa.view k := by
  apply view_argLoop (Q := fun pa => (pa.numUnconnectedAddrs : Int) < cap)
    (f := fun addr _ => { addr, expiry := exp, ttl, peer := p }) _ _ _ _ args hn h hcap
  · exact fun pa m hp => (timed_setOne hp hpos httl hexp).1
  · intro pa m hp hq
    have hle : pa.numUnconnectedAddrs ≤ (setOne cap p ttl exp pa m).numUnconnectedAddrs :=
      (timed_setOne hp hpos httl hexp).2
    omega
  · exact fun _ _ hm => skip_setOne hm
  · exact fun pa m addr hp hq hm => view_setOne hp hpos hq hm

/-! ## Loops over the entries of a peer -/

/-- The entry `a` is given up for what `g` makes of it, and the others stay where they are. -/
structure Replaces (g : ExpiringAddr → Option ExpiringAddr) (a : Nat) (pa pa' : PeerAddrs) :
    Prop where
  timed : pa'.Timed
  others : ∀ b, b ≠ a → pa.Live b → pa'.Live b ∧ (pa'.entry b).key = (pa.entry b).key
  view : ∀ k, pa'.view k = if k = (pa.entry a).key then (pa.view k).bind g else pa.view k

variable {order : List Nat}

section

variable {body : PeerAddrs → Nat → PeerAddrs} {g : ExpiringAddr → Option ExpiringAddr}
  (hbody : ∀ pa a, pa.Timed → pa.Live a → Replaces g a pa (body pa a))

include hbody

/-- A loop over the entries of a peer whose body puts `g` in the place of the entry it
is given. -/
theorem view_entryLoop (h : pa.Timed) (hn : order.Nodup) (hlive : ∀ a ∈ order, pa.Live a) :
    (order.foldl body pa).Timed ∧ ∀ k, (order.foldl body pa).view k =
      if ∃ a ∈ order, k = (pa.entry a).key then (pa.view k).bind g else pa.view k := by
  induction order generalizing pa with
  | nil =>
    refine ⟨h, fun k => ?_⟩
    rfl
  | cons a rest ih =>
    rw [nodup_cons] at hn
    have ha := hlive a mem_cons_self
    obtain ⟨htimed, hothers, hview⟩ := hbody pa a h ha
    have hne : ∀ b ∈ rest, b ≠ a := fun b hb hba => hn.1 (hba ▸ hb)
    obtain ⟨hinv, hrest⟩ := ih htimed hn.2 fun b hb =>
      (hothers b (hne b hb) (hlive b (mem_cons_of_mem _ hb))).1
    refine ⟨hinv, fun k => ?_⟩
    rw [foldl_cons, hrest k, hview k]
    by_cases hk : k = (pa.entry a).key
    · -- one key has one pointer, so no later entry has this key
      have hno : ¬ ∃ b ∈ rest, k = ((body pa a).entry b).key := by
        intro hc
        obtain ⟨b, hb, hkb⟩ := hc
        have hb' := hlive b (mem_cons_of_mem _ hb)
        rw [(hothers b (hne b hb) hb').2] at hkb
        unfold PeerAddrs.Live at ha hb'
        rw [← hkb, hk, ha] at hb'
        exact hne b hb (some.inj hb').symm
      rw [if_neg hno, if_pos hk, if_pos ⟨a, mem_cons_self, hk⟩]
    · have hiff : (∃ b ∈ a :: rest, k = (pa.entry b).key) ↔
          ∃ b ∈ rest, k = ((body pa a).entry b).key := by
        constructor
        · intro hc
          obtain ⟨b, hb, hkb⟩ := hc
          rcases mem_cons.mp hb with hba | hb
          · exact absurd (hba ▸ hkb) hk
          · refine ⟨b, hb, ?_⟩
            rw [(hothers b (hne b hb) (hlive b (mem_cons_of_mem _ hb))).2]
            exact hkb
        · intro hc
          obtain ⟨b, hb, hkb⟩ := hc
          rw [(hothers b (hne b hb) (hlive b (mem_cons_of_mem _ hb))).2] at hkb
          exact ⟨b, mem_cons_of_mem _ hb, hkb⟩
      simp only [hk, if_false, hiff]

omit hbody in
/-- The entries of a peer are those with its key. -/
theorem ofPeer_iff (h : pa.Timed) (hr : order.Perm (pa.ofPeer p)) (hk : pa.view k = some e) :
    (∃ a ∈ order, k = (pa.entry a).key) ↔ k.1 = p := by
  obtain ⟨a, ha, _⟩ := map_eq_some_iff.mp hk
  constructor
  · intro hc
    obtain ⟨b, hb, hkb⟩ := hc
    obtain ⟨addr, haddr⟩ := h.indexed.mem_ofPeer.mp (hr.mem_iff.mp hb)
    rw [hkb, (h.indexed.home _ b haddr).1]
  · intro hp
    refine ⟨a, hr.mem_iff.mpr (h.indexed.mem_ofPeer.mpr ⟨k.2, ?_⟩), (h.indexed.home k a ha).1.symm⟩
    rw [← hp]
    exact ha

/-- The loop of `view_entryLoop` over all entries of a peer. -/
theorem view_peerLoop (h : pa.Timed) (hr : order.Perm (pa.ofPeer p)) :
    (order.foldl body pa).Timed ∧ ∀ k, (order.foldl body pa).view k =
      if k.1 = p then (pa.view k).bind g else pa.view k := by
  have hlive : ∀ a ∈ order, pa.Live a := fun a ha => h.indexed.live_ofPeer (hr.mem_iff.mp ha)
  obtain ⟨hinv, hview⟩ := view_entryLoop hbody h
    (hr.nodup_iff.mpr h.indexed.nodup_ofPeer) hlive
  refine ⟨hinv, fun k => ?_⟩
  rw [hview k]
  cases hk : pa.view k with
  | none =>
    rw [bind_none, ite_self, ite_self]
  | some e => simp only [ofPeer_iff h hr hk]

end

theorem replaces_delete {g : ExpiringAddr → Option ExpiringAddr} (h : pa.Timed) (ha : pa.Live a)
    (hg : g (pa.entry a) = none) : Replaces g a pa (pa.delete a) := by
  have hview := h.indexed.view_delete ha
  refine ⟨timed_of_view h (h.indexed.delete ha) ?_, ?_, ?_⟩
  · intro k e he
    rw [hview] at he
    split at he
    · cases he
    · exact .inl he
  · intro b hb hlive
    refine ⟨hlive.delete h.indexed ha hb, ?_⟩
    rw [h.indexed.delete_eq ha]
  · intro k
    rw [hview]
    split
    · rename_i hk
      rw [hk, view_of_get ha, bind_some, hg]
    · rfl

/-- What `UpdateAddrs` makes of an entry. -/
def updatedTo (oldTTL newTTL exp : Int) (e : ExpiringAddr) : Option ExpiringAddr :=
  if oldTTL = e.ttl then
    if newTTL = 0 then none else some { e with ttl := newTTL, expiry := exp }
  else some e

theorem view_updateLoop (cap oldTTL : Int) {newTTL : Int} (hnew : ¬ ttlIsConnected newTTL)
    (hexp : WholeSeconds exp) (h : pa.Timed) (hr : order.Perm (pa.ofPeer p)) :
    (order.foldl (updateOne cap oldTTL newTTL exp) pa).Timed ∧
      ∀ k, (order.foldl (updateOne cap oldTTL newTTL exp) pa).view k =
        if k.1 = p then (pa.view k).bind (updatedTo oldTTL newTTL exp) else pa.view k := by
  refine view_peerLoop ?_ h hr
  intro pa a h ha
  have hv : pa.view (pa.entry a).key = some (pa.entry a) := view_of_get ha
  have hconn : ¬ (pa.entry a).isConnected := (h.entries _ _ hv).ttl
  unfold updateOne updatedTo
  by_cases hold : oldTTL = (pa.entry a).ttl
  · have hcap : ¬ (ttlIsConnected oldTTL ∧ ¬ ttlIsConnected newTTL ∧
        cap ≤ (pa.numUnconnectedAddrs : Int)) := by
      intro hc
      rw [hold] at hc
      exact hconn hc.1
    split
    · apply replaces_delete h ha
      rw [if_pos hold]
    · have hview := h.indexed.view_touch ha
        (e := { pa.entry a with ttl := newTTL, expiry := exp })
      refine ⟨timed_of_view h (h.indexed.touch ha rfl fun hc => absurd hc hconn) ?_, ?_, ?_⟩
      · intro k e he
        refine (view_cases hview he).imp_right ?_
        rintro rfl
        exact ⟨hnew, hexp⟩
      · intro b hb hlive
        refine ⟨hlive.touch hb, ?_⟩
        rw [entry_touch hb]
      · intro k
        rw [hview]
        split
        · rename_i hk
          rw [hk, hv, bind_some, if_pos hold]
        · rfl
  · rw [if_neg hold]
    refine ⟨h, fun b _ hlive => ⟨hlive, rfl⟩, ?_⟩
    intro k
    split
    · rename_i hk
      rw [hk, hv, bind_some, if_neg hold]
    · rfl

theorem view_clearLoop (h : pa.Timed) (hr : order.Perm (pa.ofPeer p)) :
    (order.foldl delete pa).Timed ∧ ∀ k, (order.foldl delete pa).view k =
      if k.1 = p then (pa.view k).bind (fun _ => none) else pa.view k := by
  refine view_peerLoop ?_ h hr
  exact fun pa a h ha => replaces_delete h ha rfl

theorem max_setAddrs (mab : MemoryAddrBook) (args : List (Option Multiaddr)) :
    (mab.setAddrs now p args ttl).maxUnconnectedAddrs = mab.maxUnconnectedAddrs := by
  unfold setAddrs maybeDeleteSignedPeerRecord
  split <;> rfl

/-! ## Expiry -/

theorem timed_gc {mab : MemoryAddrBook} (h : mab.addrs.Timed) (now : Int) :
    (mab.gc now).addrs.Timed ∧
      ∀ k, (mab.gc now).addrs.view k = (mab.addrs.view k).filter fun e => now < e.expiry := by
  have hview : ∀ k, (mab.gc now).addrs.view k =
      (mab.addrs.view k).filter fun e => now < e.expiry := by
    intro k
    rw [view_gc h.indexed]
    cases hk : mab.addrs.view k with
    | none => rfl
    | some e => simp only [filter_some, (h.entries k e hk).ttl, false_or]
  refine ⟨timed_of_view h (indexed_gc h.indexed) ?_, hview⟩
  intro k e he
  rw [hview] at he
  exact .inl (filter_eq_some_iff.mp he).1

end MemoryAddrBook

end Dep2p.Peerstore
