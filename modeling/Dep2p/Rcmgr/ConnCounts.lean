import Dep2p.Lib.Reach
import Dep2p.Rcmgr.ConnLimiter
import Mathlib.Data.List.Forall2
import Mathlib.Data.List.GetD

/- What the connection limiter counts (`conn_limiter.go`).

   An address belongs to the first network prefix of the sorted list that contains it, and
   to its subnet at every level only where there is none. The limiter keeps for every
   prefix and every subnet the number of connections that were admitted and not removed
   (`Tracks`). The two loops of `addConn` and the loop of `rmConn` work on one level after
   the other, so each is a function on a level: `bump` and `unbump` count, and the look
   before (`touch`) leaves an entry of zero where there was none.

   Counts are `int` in the source; they stay below the number of open connections.

   What is proved:
     `limiter_counts` — the counts are exact and within the limits. -/
namespace Dep2p.Rcmgr

open Lib List FamilyLimits ConnLimiter

variable {limits : List ConnLimitPerSubnet} {tables : List SubnetCounts} {counts : List Int}

/-- `sortNetworkPrefixes`: the most specific prefix first, and otherwise as given. -/
def sortNetworkPrefixes (limits : List NetworkPrefixLimit) : List NetworkPrefixLimit :=
  limits.mergeSort fun a b => decide (b.network.bits ≤ a.network.bits)

namespace FamilyLimits

/-! ## The loops, level by level -/

variable {limit : ConnLimitPerSubnet}

section Levels

variable (ip : Addr)

/-- What the first loop leaves of a table it looks at. -/
def touch (table : SubnetCounts) (p : NetPrefix) : SubnetCounts :=
  match table p with
  | some _ => table
  | none => Function.update table p (some 0)

/-- The first loop: whether every level has room, and the tables it leaves. -/
def checkLevels : List ConnLimitPerSubnet → List SubnetCounts → List SubnetCounts × Bool
  | limit :: limits, table :: tables =>
    match ip.toPrefix limit.prefixLength with
    | none => (table :: tables, false)
    | some p =>
      if (table p).getD 0 + 1 > limit.connCount then (touch table p :: tables, false)
      else (touch table p :: (checkLevels limits tables).1, (checkLevels limits tables).2)
  | _, tables => (tables, true)

/-- The second loop at one level. -/
def bump (limit : ConnLimitPerSubnet) (table : SubnetCounts) : SubnetCounts :=
  match ip.toPrefix limit.prefixLength with
  | none => table
  | some p => Function.update table p (some ((table p).getD 0 + 1))

/-- The loop of `rmConn` at one level. -/
def unbump (limit : ConnLimitPerSubnet) (table : SubnetCounts) : SubnetCounts :=
  match ip.toPrefix limit.prefixLength with
  | none => table
  | some p =>
    match table p with
    | none => table
    | some n =>
      if n = 0 then table
      else Function.update table p (if n - 1 ≤ 0 then none else some (n - 1))

variable {ip}

theorem getD_append_self {α : Type} (pre post : List α) (a d : α) :
    (pre ++ a :: post).getD pre.length d = a := by
  simp

theorem set_append_self {α : Type} (pre post : List α) (a b : α) :
    (pre ++ a :: post).set pre.length b = pre ++ b :: post := by
  simp

/-- The loops run over the levels with an index; `pre` are the tables before it, which are
put back in front of what the levels give. -/
theorem loop_eq {γ : Type} {put : List SubnetCounts → γ → γ}
    (hput : ∀ pre t r, put (pre ++ [t]) r = put pre (put [t] r))
    {loop : List ConnLimitPerSubnet → Nat → List SubnetCounts → γ}
    {levels : List ConnLimitPerSubnet → List SubnetCounts → γ}
    (hnil : ∀ pre, loop [] pre.length pre = put pre (levels [] []))
    (hcons : ∀ limit limits pre table tables,
      (∀ t, loop limits (pre.length + 1) (pre ++ t :: tables) =
        put pre (put [t] (levels limits tables))) →
      loop (limit :: limits) pre.length (pre ++ table :: tables) =
        put pre (levels (limit :: limits) (table :: tables)))
    {limits : List ConnLimitPerSubnet} {pre tables : List SubnetCounts}
    (h : tables.length = limits.length) :
    loop limits pre.length (pre ++ tables) = put pre (levels limits tables) := by
  induction limits generalizing pre tables with
  | nil =>
    rw [length_eq_zero_iff.mp h, append_nil]
    exact hnil pre
  | cons limit limits ih =>
    obtain ⟨table, tables, rfl⟩ := exists_cons_of_length_eq_add_one h
    refine hcons limit limits pre table tables fun t => ?_
    have hnext := @ih (pre ++ [t]) tables (Nat.succ.inj h)
    rwa [length_append, length_singleton, append_assoc, hput] at hnext

section

variable (ip : Addr) (limits : List ConnLimitPerSubnet) (pre tables : List SubnetCounts)
  (h : tables.length = limits.length)
include h

theorem countSubnets_eq :
    countSubnets ip limits pre.length (pre ++ tables) =
      pre ++ zipWith (bump ip) limits tables := by
  refine loop_eq (fun pre t r => append_assoc pre [t] r) (fun pre => (append_nil pre).symm) ?_ h
  intro limit limits pre table tables hnext
  cases hp : ip.toPrefix limit.prefixLength with
  | none =>
    simp only [countSubnets, zipWith_cons_cons, bump, hp]
    exact hnext table
  | some p =>
    simp only [countSubnets, zipWith_cons_cons, bump, hp, getD_append_self, set_append_self]
    exact hnext _

theorem uncountSubnets_eq :
    uncountSubnets ip limits pre.length (pre ++ tables) =
      pre ++ zipWith (unbump ip) limits tables := by
  refine loop_eq (fun pre t r => append_assoc pre [t] r) (fun pre => (append_nil pre).symm) ?_ h
  intro limit limits pre table tables hnext
  cases hp : ip.toPrefix limit.prefixLength with
  | none =>
    simp only [uncountSubnets, zipWith_cons_cons, unbump, hp]
    exact hnext table
  | some p =>
    simp only [uncountSubnets, zipWith_cons_cons, unbump, hp, getD_append_self]
    cases htable : table p with
    | none => exact hnext table
    | some n =>
      dsimp only
      split
      · exact hnext table
      · rw [set_append_self]
        exact hnext _

theorem checkSubnets_eq :
    checkSubnets ip limits pre.length (pre ++ tables) =
      (pre ++ (checkLevels ip limits tables).1, (checkLevels ip limits tables).2) := by
  refine @loop_eq _ (fun pre r => (pre ++ r.1, r.2)) (fun pre t r => ?_) _ (checkLevels ip)
    (fun pre => ?_) ?_ _ _ _ h
  · exact congrArg (·, r.2) (append_assoc pre [t] r.1)
  · exact congrArg (·, true) (append_nil pre).symm
  · intro limit limits pre table tables hnext
    cases hp : ip.toPrefix limit.prefixLength with
    | none => simp only [checkSubnets, checkLevels, hp]
    | some p =>
      simp only [checkSubnets, checkLevels, hp, getD_append_self, set_append_self, touch]
      cases htable : table p with
      | none | some n =>
        split
        · rfl
        · exact hnext _

end

/-- A level has room for one more connection of the address. -/
def Room (ip : Addr) (limit : ConnLimitPerSubnet) (table : SubnetCounts) : Prop :=
  ∃ p, ip.toPrefix limit.prefixLength = some p ∧ (table p).getD 0 + 1 ≤ limit.connCount

theorem touch_getD (table : SubnetCounts) (p q : NetPrefix) :
    (touch table p q).getD 0 = (table q).getD 0 := by
  cases hp : table p with
  | some n => simp only [touch, hp]
  | none =>
    simp only [touch, hp, Function.update_apply]
    split
    · rename_i heq
      rw [heq, hp]
      rfl
    · rfl

/-- The first loop goes through exactly where every level has room. -/
theorem checkLevels_iff (h : tables.length = limits.length) :
    (checkLevels ip limits tables).2 = true ↔ List.Forall₂ (Room ip) limits tables := by
  induction limits generalizing tables with
  | nil =>
    rw [length_eq_zero_iff.mp h]
    simp [checkLevels]
  | cons limit limits ih =>
    obtain ⟨table, tables, rfl⟩ := exists_cons_of_length_eq_add_one h
    rw [checkLevels, forall₂_cons]
    split
    · rename_i hp
      simp [Room, hp]
    · rename_i p hp
      have hroom : Room ip limit table ↔ (table p).getD 0 + 1 ≤ limit.connCount := by
        simp [Room, hp]
      rw [hroom]
      split
      · rename_i hfull
        simp only [Bool.false_eq_true, false_iff]
        omega
      · rename_i hfree
        rw [ih (Nat.succ.inj h)]
        exact (and_iff_right (Int.not_lt.mp hfree)).symm

/-- What a look keeps, the first loop keeps. -/
theorem checkLevels_forall₂ {P : ConnLimitPerSubnet → SubnetCounts → Prop}
    (hP : ∀ limit table p, P limit table → P limit (touch table p))
    (h : List.Forall₂ P limits tables) : List.Forall₂ P limits (checkLevels ip limits tables).1 := by
  induction h with
  | nil => exact .nil
  | cons hhead htail ih =>
    rw [checkLevels]
    split
    · exact .cons hhead htail
    · split
      · exact .cons (hP _ _ _ hhead) htail
      · exact .cons (hP _ _ _ hhead) ih

/-- A function at every level takes two facts about the levels to a third. -/
theorem forall₂_zipWith {P Q R : ConnLimitPerSubnet → SubnetCounts → Prop}
    {f : ConnLimitPerSubnet → SubnetCounts → SubnetCounts}
    (hf : ∀ limit table, P limit table → Q limit table → R limit (f limit table))
    (hp : List.Forall₂ P limits tables) (hq : List.Forall₂ Q limits tables) :
    List.Forall₂ R limits (zipWith f limits tables) := by
  induction hp with
  | nil => exact .nil
  | cons hhead htail ih =>
    cases hq with
    | cons hhead' htail' => exact .cons (hf _ _ hhead hhead') (ih htail')

/-! ## One level counts its subnets -/

/-- The connection is counted in the subnet `p`, if it is one of those that subnets count. -/
def inSubnet (outside : Addr → Bool) (limit : ConnLimitPerSubnet) (p : NetPrefix) (a : Addr) : Bool :=
  outside a && decide (a.toPrefix limit.prefixLength = some p)

/-- A level counts the live connections of every subnet, within its limit. -/
structure Level (outside : Addr → Bool) (live : List Addr) (limit : ConnLimitPerSubnet)
    (table : SubnetCounts) : Prop where
  count : ∀ p, (table p).getD 0 = live.countP (inSubnet outside limit p)
  le : ∀ p, (table p).getD 0 ≤ max limit.connCount 0

variable {outside : Addr → Bool} {live : List Addr} {limit : ConnLimitPerSubnet}
  {table : SubnetCounts}

theorem countP_erase {q : Addr → Bool} (h : ip ∈ live) :
    live.countP q = (live.erase ip).countP q + if q ip then 1 else 0 := by
  rw [(perm_cons_erase h).countP_eq, countP_cons]

section

variable (h : Level outside live limit table)
include h

theorem Level.touch (p : NetPrefix) : Level outside live limit (touch table p) where
  count := fun q => by rw [touch_getD, h.count]
  le := fun q => by
    rw [touch_getD]
    exact h.le q

/-- A connection that no subnet counts. -/
theorem Level.cons_other (hip : outside ip = false) : Level outside (ip :: live) limit table where
  count := fun p => by
    rw [h.count, countP_cons, if_neg (by simp [inSubnet, hip]), Nat.add_zero]
  le := h.le

theorem Level.erase_other (hip : outside ip = false) (hmem : ip ∈ live) :
    Level outside (live.erase ip) limit table where
  count := fun p => by
    rw [h.count, countP_erase hmem, if_neg (by simp [inSubnet, hip]), Nat.add_zero]
  le := h.le

theorem Level.bump (hip : outside ip = true) (hroom : Room ip limit table) :
    Level outside (ip :: live) limit (bump ip limit table) := by
  obtain ⟨p, hp, hle⟩ := hroom
  have hget : ∀ q, (FamilyLimits.bump ip limit table q).getD 0 =
      (table q).getD 0 + if q = p then 1 else 0 := by
    intro q
    simp only [FamilyLimits.bump, hp, Function.update_apply]
    split
    · rename_i heq
      rw [heq]
      rfl
    · rw [Int.add_zero]
  have hin : ∀ q, inSubnet outside limit q ip = decide (q = p) := by
    simp [inSubnet, hip, hp, eq_comm]
  refine ⟨fun q => ?_, fun q => ?_⟩
  · rw [hget, h.count, countP_cons, hin]
    by_cases hq : q = p <;> simp [hq]
  · rw [hget]
    have hq := h.le q
    split
    · rename_i heq
      rw [heq]
      omega
    · omega

theorem Level.unbump (hip : outside ip = true) (hmem : ip ∈ live) :
    Level outside (live.erase ip) limit (unbump ip limit table) := by
  cases hp : ip.toPrefix limit.prefixLength with
  | none =>
    have hsame : FamilyLimits.unbump ip limit table = table := by simp [FamilyLimits.unbump, hp]
    rw [hsame]
    refine ⟨fun q => ?_, h.le⟩
    rw [h.count, countP_erase hmem, if_neg (by simp [inSubnet, hp]), Nat.add_zero]
  | some p =>
    have hin : ∀ q, inSubnet outside limit q ip = decide (q = p) := by
      simp [inSubnet, hip, hp, eq_comm]
    -- the connection itself is counted, so there is an entry and it is not zero
    have hpos : 0 < (table p).getD 0 := by
      rw [h.count, countP_erase hmem, hin]
      simp
    have hget : ∀ q, (FamilyLimits.unbump ip limit table q).getD 0 =
        (table q).getD 0 - if q = p then 1 else 0 := by
      intro q
      simp only [FamilyLimits.unbump, hp]
      cases htable : table p with
      | none =>
        rw [htable] at hpos
        exact absurd hpos (by decide)
      | some n =>
        rw [htable] at hpos
        change 0 < n at hpos
        dsimp only
        rw [if_neg (by omega), Function.update_apply]
        by_cases hq : q = p
        · rw [if_pos hq, if_pos hq, hq, htable]
          split
          · change 0 = n - 1
            omega
          · rfl
        · rw [if_neg hq, if_neg hq, Int.sub_zero]
    refine ⟨fun q => ?_, fun q => ?_⟩
    · rw [hget, h.count, countP_erase hmem, hin]
      by_cases hq : q = p <;> simp [hq]
    · rw [hget]
      have hq := h.le q
      split <;> omega

end

end Levels

/-! ## One address family -/

variable {nets : List NetworkPrefixLimit}

section Family

variable {t : FamilyLimits} {ip : Addr} {i : Nat}

/-- The network prefix that decides about an address. -/
def slot (t : FamilyLimits) (ip : Addr) : Option Nat :=
  t.networkPrefixLimit.findIdx? (·.network.contains ip)

/-- The counts of the network prefixes, as `addConn` and `rmConn` see them. -/
def prefixCounts (t : FamilyLimits) : List Int := t.initNetworkPrefix.connsPerNetworkPrefix

/-- The tables of the subnets, as `addConn` and `rmConn` see them. -/
def levels (t : FamilyLimits) : List SubnetCounts := t.initPerLimit.connsPerLimit

theorem initNetworkPrefix_eq :
    t.initNetworkPrefix = { t with connsPerNetworkPrefix := t.prefixCounts } := by
  unfold prefixCounts initNetworkPrefix
  split <;> rfl

theorem initPerLimit_eq :
    t.initPerLimit = { t with connsPerLimit := t.levels } := by
  unfold levels initPerLimit
  split <;> rfl

theorem prefixCounts_mk (h : counts.length = t.networkPrefixLimit.length) :
    prefixCounts { t with connsPerNetworkPrefix := counts } = counts := by
  unfold prefixCounts initNetworkPrefix
  split
  · rename_i hempty
    dsimp only at hempty
    omega
  · rfl

theorem levels_mk (h : tables.length = t.connLimitPerSubnet.length) :
    levels { t with connsPerLimit := tables } = tables := by
  unfold levels initPerLimit
  split
  · rename_i hempty
    dsimp only at hempty
    omega
  · rfl

theorem levels_withPrefixes :
    levels { t with connsPerNetworkPrefix := counts } = t.levels := by
  unfold levels initPerLimit
  split <;> rfl

/-- How many connections a network prefix allows. -/
def prefixLimit (t : FamilyLimits) (i : Nat) : Int :=
  ((t.networkPrefixLimit[i]?).map (·.connCount)).getD 0

theorem addConn_inside (h : t.slot ip = some i) :
    t.addConn ip =
      if t.prefixCounts.getD i 0 + 1 > t.prefixLimit i then
        ({ t with connsPerNetworkPrefix := t.prefixCounts }, false)
      else
        ({ t with connsPerNetworkPrefix := t.prefixCounts.set i (t.prefixCounts.getD i 0 + 1) },
          true) := by
  have hfind : t.networkPrefixLimit.findIdx? (·.network.contains ip) = some i := h
  unfold addConn
  simp only [initNetworkPrefix_eq, hfind]
  rfl

theorem addConn_outside (h : t.slot ip = none) (hlen : t.levels.length = t.connLimitPerSubnet.length) :
    t.addConn ip =
      ({ t with
          connsPerNetworkPrefix := t.prefixCounts
          connsPerLimit := if (checkLevels ip t.connLimitPerSubnet t.levels).2 then
              zipWith (bump ip) t.connLimitPerSubnet
                (checkLevels ip t.connLimitPerSubnet t.levels).1
            else (checkLevels ip t.connLimitPerSubnet t.levels).1 },
        (checkLevels ip t.connLimitPerSubnet t.levels).2) := by
  have hfind : t.networkPrefixLimit.findIdx? (·.network.contains ip) = none := h
  have hcheck := checkSubnets_eq ip t.connLimitPerSubnet [] t.levels hlen
  simp only [length_nil, nil_append] at hcheck
  unfold addConn
  simp only [initNetworkPrefix_eq, hfind, initPerLimit_eq, levels_withPrefixes, hcheck]
  cases hok : (checkLevels ip t.connLimitPerSubnet t.levels).2 with
  | false => simp
  | true =>
    have hlen' : (checkLevels ip t.connLimitPerSubnet t.levels).1.length =
        t.connLimitPerSubnet.length := by
      have hforall : List.Forall₂ (fun _ _ => True) t.connLimitPerSubnet t.levels :=
        forall₂_iff_get.mpr ⟨hlen.symm, fun _ _ _ => trivial⟩
      exact (checkLevels_forall₂ (fun _ _ _ h => h) hforall).length_eq.symm
    have hcount := countSubnets_eq ip t.connLimitPerSubnet []
      (checkLevels ip t.connLimitPerSubnet t.levels).1 hlen'
    simp only [length_nil, nil_append] at hcount
    simp [hcount]

theorem rmConn_inside (h : t.slot ip = some i) :
    t.rmConn ip =
      { t with connsPerNetworkPrefix :=
          if t.prefixCounts.getD i 0 ≤ 0 then t.prefixCounts
          else t.prefixCounts.set i (t.prefixCounts.getD i 0 - 1) } := by
  have hfind : t.networkPrefixLimit.findIdx? (·.network.contains ip) = some i := h
  unfold rmConn
  simp only [initNetworkPrefix_eq, hfind]
  split <;> rfl

theorem rmConn_outside (h : t.slot ip = none) (hlen : t.levels.length = t.connLimitPerSubnet.length) :
    t.rmConn ip =
      { t with
        connsPerNetworkPrefix := t.prefixCounts
        connsPerLimit := zipWith (unbump ip) t.connLimitPerSubnet t.levels } := by
  have hfind : t.networkPrefixLimit.findIdx? (·.network.contains ip) = none := h
  have huncount := uncountSubnets_eq ip t.connLimitPerSubnet [] t.levels hlen
  simp only [length_nil, nil_append] at huncount
  unfold rmConn
  simp [initNetworkPrefix_eq, hfind, initPerLimit_eq, levels_withPrefixes, huncount]

theorem slot_lt (h : t.slot ip = some i) : i < t.networkPrefixLimit.length :=
  (findIdx?_eq_some_iff_findIdx_eq.mp h).1

/-- A connection of this family that the subnets count. -/
def outside (t : FamilyLimits) (mine : Addr → Bool) (a : Addr) : Bool :=
  mine a && decide (t.slot a = none)

/-- A connection of this family that the `i`-th network prefix counts. -/
def inPrefix (t : FamilyLimits) (mine : Addr → Bool) (i : Nat) (a : Addr) : Bool :=
  mine a && decide (t.slot a = some i)

/-- The counts of a family are those of the live connections, within the limits. -/
structure Tracks (t : FamilyLimits) (mine : Addr → Bool) (live : List Addr) : Prop where
  length : t.prefixCounts.length = t.networkPrefixLimit.length
  count : ∀ i, t.prefixCounts.getD i 0 = live.countP (t.inPrefix mine i)
  le : ∀ i, t.prefixCounts.getD i 0 ≤ max (t.prefixLimit i) 0
  levels : List.Forall₂ (Level (t.outside mine) live) t.connLimitPerSubnet t.levels

variable {mine : Addr → Bool} {live : List Addr}

/-- Other counts of the network prefixes under the same tables. -/
theorem Tracks.withPrefixes (hlen : counts.length = t.networkPrefixLimit.length)
    (hcount : ∀ i, counts.getD i 0 = live.countP (t.inPrefix mine i))
    (hle : ∀ i, counts.getD i 0 ≤ max (t.prefixLimit i) 0)
    (hlevels : List.Forall₂ (Level (t.outside mine) live) t.connLimitPerSubnet t.levels) :
    Tracks { t with connsPerNetworkPrefix := counts } mine live where
  length := by
    rw [prefixCounts_mk hlen]
    exact hlen
  count := fun i => by
    rw [prefixCounts_mk hlen]
    exact hcount i
  le := fun i => by
    rw [prefixCounts_mk hlen]
    exact hle i
  levels := by
    rw [levels_withPrefixes]
    exact hlevels

/-- Other tables under the same counts of the network prefixes. -/
theorem Tracks.withLevels (h : Tracks t mine live) {live' : List Addr}
    (hcount : ∀ i, live'.countP (t.inPrefix mine i) = live.countP (t.inPrefix mine i))
    (hlevels : List.Forall₂ (Level (t.outside mine) live') t.connLimitPerSubnet tables) :
    Tracks { t with connsPerNetworkPrefix := t.prefixCounts, connsPerLimit := tables } mine live' := by
  have hcounts : prefixCounts
      { t with connsPerNetworkPrefix := t.prefixCounts, connsPerLimit := tables } = t.prefixCounts :=
    prefixCounts_mk (t := { t with connsPerLimit := tables }) h.length
  have htables : FamilyLimits.levels
      { t with connsPerNetworkPrefix := t.prefixCounts, connsPerLimit := tables } = tables :=
    levels_mk (t := { t with connsPerNetworkPrefix := t.prefixCounts }) hlevels.length_eq.symm
  constructor
  · rw [hcounts]
    exact h.length
  · intro i
    rw [hcounts, h.count]
    exact congrArg Nat.cast (hcount i).symm
  · intro i
    rw [hcounts]
    exact h.le i
  · rw [htables]
    exact hlevels

theorem getD_set (h : i < counts.length) (n : Int) (j : Nat) :
    (counts.set i n).getD j 0 = if j = i then n else counts.getD j 0 := by
  rw [getD_eq_getElem?_getD, getD_eq_getElem?_getD, getElem?_set]
  by_cases hji : i = j
  · rw [if_pos hji, if_pos (hji ▸ h), if_pos hji.symm]
    rfl
  · rw [if_neg hji, if_neg (fun heq => hji heq.symm)]

section

variable (h : Tracks t mine live)
include h

theorem Tracks.addConn (hip : mine ip = true) :
    Tracks (t.addConn ip).1 mine (if (t.addConn ip).2 then ip :: live else live) := by
  cases hslot : t.slot ip with
  | some i =>
    have hout : t.outside mine ip = false := by simp [outside, hslot]
    have hin : ∀ j, t.inPrefix mine j ip = decide (j = i) := by
      simp [inPrefix, hip, hslot, eq_comm]
    rw [addConn_inside hslot]
    split
    · exact withPrefixes h.length h.count h.le h.levels
    rename_i hroom
    have hget := getD_set (h.length ▸ slot_lt hslot) (t.prefixCounts.getD i 0 + 1)
    refine withPrefixes ?_ (fun j => ?_) (fun j => ?_) ?_
    · rw [length_set]
      exact h.length
    · dsimp only
      rw [hget, if_pos rfl, countP_cons, hin]
      by_cases hj : j = i
      · rw [if_pos hj, hj, h.count, if_pos (decide_eq_true rfl)]
        rfl
      · rw [if_neg hj, h.count, if_neg (by simp [hj]), Nat.add_zero]
    · rw [hget]
      have hj := h.le j
      split
      · rename_i heq
        rw [heq]
        omega
      · exact hj
    · exact h.levels.imp fun limit table hl => hl.cons_other hout
  | none =>
    have hout : t.outside mine ip = true := by simp [outside, hip, hslot]
    have hin : ∀ j, t.inPrefix mine j ip = false := by
      simp [inPrefix, hslot]
    have hlen := h.levels.length_eq.symm
    have hlooked : List.Forall₂ (Level (t.outside mine) live) t.connLimitPerSubnet
        (checkLevels ip t.connLimitPerSubnet t.levels).1 :=
      checkLevels_forall₂ (fun limit table p hl => hl.touch p) h.levels
    rw [addConn_outside hslot hlen]
    cases hok : (checkLevels ip t.connLimitPerSubnet t.levels).2 with
    | false =>
      exact h.withLevels (fun _ => rfl) hlooked
    | true =>
      have hroom : List.Forall₂ (Room ip) t.connLimitPerSubnet
          (checkLevels ip t.connLimitPerSubnet t.levels).1 :=
        checkLevels_forall₂ (fun limit table p hr => by simpa only [Room, touch_getD] using hr)
          ((checkLevels_iff hlen).mp hok)
      rw [if_pos rfl, if_pos rfl]
      refine h.withLevels (fun j => ?_) ?_
      · rw [countP_cons, hin]
        rfl
      · exact forall₂_zipWith (fun limit table hl hr => hl.bump hout hr) hlooked hroom

theorem Tracks.rmConn (hip : mine ip = true) (hmem : ip ∈ live) :
    Tracks (t.rmConn ip) mine (live.erase ip) := by
  cases hslot : t.slot ip with
  | some i =>
    have hout : t.outside mine ip = false := by simp [outside, hslot]
    have hin : ∀ j, t.inPrefix mine j ip = decide (j = i) := by
      simp [inPrefix, hip, hslot, eq_comm]
    have hcount : ∀ j, t.prefixCounts.getD j 0 =
        (live.erase ip).countP (t.inPrefix mine j) + if j = i then 1 else 0 := by
      intro j
      rw [h.count, countP_erase hmem, hin]
      by_cases hj : j = i <;> simp [hj]
    have hpos : ¬ t.prefixCounts.getD i 0 ≤ 0 := by
      rw [hcount]
      omega
    have hget := getD_set (h.length ▸ slot_lt hslot) (t.prefixCounts.getD i 0 - 1)
    rw [rmConn_inside hslot, if_neg hpos]
    refine withPrefixes ?_ (fun j => ?_) (fun j => ?_) ?_
    · rw [length_set]
      exact h.length
    · have hj := hcount j
      rw [hget]
      split
      · rename_i heq
        rw [heq] at hj
        rw [heq]
        omega
      · rename_i hne
        omega
    · have hj := h.le j
      rw [hget]
      split
      · rename_i heq
        rw [heq] at hj
        rw [heq]
        omega
      · exact hj
    · exact h.levels.imp fun limit table hl => hl.erase_other hout hmem
  | none =>
    have hout : t.outside mine ip = true := by simp [outside, hip, hslot]
    have hin : ∀ j, t.inPrefix mine j ip = false := by
      simp [inPrefix, hslot]
    rw [rmConn_outside hslot h.levels.length_eq.symm]
    refine h.withLevels (fun j => ?_) ?_
    · rw [countP_erase hmem, hin]
      rfl
    · exact forall₂_zipWith (fun limit table hl _ => hl.unbump hout hmem) h.levels h.levels

/-- A connection of the other family. -/
theorem Tracks.cons_other (hip : mine ip = false) : Tracks t mine (ip :: live) where
  length := h.length
  count := fun i => by
    rw [h.count, countP_cons, if_neg (by simp [inPrefix, hip]), Nat.add_zero]
  le := h.le
  levels := h.levels.imp fun limit table hl => hl.cons_other (by simp [outside, hip])

theorem Tracks.erase_other (hip : mine ip = false) (hmem : ip ∈ live) :
    Tracks t mine (live.erase ip) where
  length := h.length
  count := fun i => by
    rw [h.count, countP_erase hmem, if_neg (by simp [inPrefix, hip]), Nat.add_zero]
  le := h.le
  levels := h.levels.imp fun limit table hl => hl.erase_other (by simp [outside, hip]) hmem

end

/-! ## What the tables say -/

/-- The count kept for a network prefix. -/
def prefixCount (t : FamilyLimits) (i : Nat) : Int := t.connsPerNetworkPrefix.getD i 0

/-- The table of a subnet limit. -/
def subnetTable (t : FamilyLimits) (j : Nat) : SubnetCounts := t.connsPerLimit.getD j fun _ => none

/-- The count kept for a subnet. -/
def subnetCount (t : FamilyLimits) (j : Nat) (p : NetPrefix) : Int := (t.subnetTable j p).getD 0

theorem prefixCount_eq : t.prefixCount i = t.prefixCounts.getD i 0 := by
  unfold prefixCount prefixCounts initNetworkPrefix
  split
  · rename_i hempty
    rw [length_eq_zero_iff.mp hempty.1]
    exact (getElem?_getD_replicate_default_eq _ _ _).symm
  · rfl

theorem subnetTable_eq (j : Nat) :
    t.subnetTable j = t.levels.getD j fun _ => none := by
  unfold subnetTable levels initPerLimit
  split
  · rename_i hempty
    rw [length_eq_zero_iff.mp hempty.1]
    exact (getElem?_getD_replicate_default_eq _ _ _).symm
  · rfl

/-- The table of a configured limit is one of the levels. -/
theorem Tracks.level (h : Tracks t mine live) {j : Nat}
    (hj : t.connLimitPerSubnet[j]? = some limit) :
    Level (t.outside mine) live limit (t.subnetTable j) := by
  obtain ⟨hlt, rfl⟩ := List.getElem?_eq_some_iff.mp hj
  have hlt' : j < t.levels.length := h.levels.length_eq ▸ hlt
  rw [subnetTable_eq, getD_eq_getElem?_getD, getElem?_eq_getElem hlt']
  exact h.levels.get hlt hlt'

theorem tracks_fresh (subnets : List ConnLimitPerSubnet) :
    Tracks { networkPrefixLimit := nets, connLimitPerSubnet := subnets } mine [] := by
  have hcounts : prefixCounts
      { networkPrefixLimit := nets, connLimitPerSubnet := subnets } =
        replicate nets.length 0 := by
    cases nets with
    | nil | cons net nets => rfl
  have hlevels : levels
      { networkPrefixLimit := nets, connLimitPerSubnet := subnets } =
        replicate subnets.length fun _ => none := by
    cases subnets with
    | nil | cons subnet subnets => rfl
  constructor
  · rw [hcounts, length_replicate]
  · intro i
    rw [hcounts, getD_eq_getElem?_getD, getElem?_getD_replicate_default_eq]
    rfl
  · intro i
    rw [hcounts, getD_eq_getElem?_getD, getElem?_getD_replicate_default_eq]
    exact Int.le_max_right _ _
  · rw [hlevels]
    refine forall₂_iff_get.mpr ⟨by rw [length_replicate], fun j h1 h2 => ?_⟩
    have hget : (replicate subnets.length fun _ => none).get ⟨j, h2⟩ =
        (fun _ => none : SubnetCounts) := getElem_replicate _
    rw [hget]
    exact ⟨fun p => rfl, fun p => Int.le_max_right _ _⟩

/-! ## The prefix that decides is the most specific one -/

theorem slot_specific (hnets : t.networkPrefixLimit = sortNetworkPrefixes nets)
    (h : t.slot ip = some i) :
    ∃ limit, t.networkPrefixLimit[i]? = some limit ∧ limit.network.contains ip = true ∧
      ∀ other ∈ nets, other.network.contains ip = true →
        other.network.bits ≤ limit.network.bits := by
  obtain ⟨hlt, hcontains, hbefore⟩ := findIdx?_eq_some_iff_getElem.mp h
  refine ⟨_, getElem?_eq_getElem hlt, hcontains, fun other hmem hother => ?_⟩
  have hsorted : t.networkPrefixLimit.Pairwise
      fun a b => decide (b.network.bits ≤ a.network.bits) = true := by
    rw [hnets]
    refine pairwise_mergeSort (fun a b c hab hbc => ?_) (fun a b => ?_) nets
    · rw [decide_eq_true_eq] at hab hbc ⊢
      exact Int.le_trans hbc hab
    · rw [Bool.or_eq_true, decide_eq_true_eq, decide_eq_true_eq]
      exact Int.le_total _ _
  have hmem' : other ∈ t.networkPrefixLimit := by
    rw [hnets]
    exact mem_mergeSort.mpr hmem
  obtain ⟨j, hj, rfl⟩ := mem_iff_getElem.mp hmem'
  -- the first prefix that contains the address stands before every other one that does
  have hij : i ≤ j := by
    by_contra hlt'
    exact hbefore j (Nat.not_le.mp hlt') hother
  rcases Nat.lt_or_eq_of_le hij with hlt' | rfl
  · exact of_decide_eq_true (pairwise_iff_getElem.mp hsorted i j hlt hj hlt')
  · exact Int.le_refl _

theorem slot_covered (hnets : t.networkPrefixLimit = sortNetworkPrefixes nets)
    (h : ∃ limit ∈ nets, limit.network.contains ip = true) : ∃ i, t.slot ip = some i := by
  obtain ⟨limit, hmem, hcontains⟩ := h
  rw [← Option.isSome_iff_exists, slot, findIdx?_isSome, any_eq_true]
  refine ⟨limit, ?_, hcontains⟩
  rw [hnets]
  exact mem_mergeSort.mpr hmem

/-- Neither operation changes the limits. -/
theorem addConn_limits :
    (t.addConn ip).1.networkPrefixLimit = t.networkPrefixLimit ∧
      (t.addConn ip).1.connLimitPerSubnet = t.connLimitPerSubnet := by
  unfold addConn
  simp only [initNetworkPrefix_eq, initPerLimit_eq]
  split
  all_goals
    split
    · exact ⟨rfl, rfl⟩
    · exact ⟨rfl, rfl⟩

theorem rmConn_limits :
    (t.rmConn ip).networkPrefixLimit = t.networkPrefixLimit ∧
      (t.rmConn ip).connLimitPerSubnet = t.connLimitPerSubnet := by
  unfold rmConn
  simp only [initNetworkPrefix_eq, initPerLimit_eq]
  split
  · split <;> exact ⟨rfl, rfl⟩
  · exact ⟨rfl, rfl⟩

end Family

/-- The counts of a family are exact: `live` are the live connections, those of the family
are `mine`, and `nets` the prefixes as configured. -/
structure Exact (t : FamilyLimits) (nets : List NetworkPrefixLimit) (mine : Addr → Bool)
    (live : List Addr) : Prop where
  prefixes : ∀ i, t.prefixCount i = live.countP (t.inPrefix mine i)
  subnets : ∀ j limit, t.connLimitPerSubnet[j]? = some limit → ∀ p,
    t.subnetCount j p = live.countP (inSubnet (t.outside mine) limit p)
  specific : ∀ ip i, t.slot ip = some i → ∃ limit, t.networkPrefixLimit[i]? = some limit ∧
    limit.network.contains ip = true ∧ ∀ other ∈ nets, other.network.contains ip = true →
      other.network.bits ≤ limit.network.bits
  covered : ∀ ip, (∃ limit ∈ nets, limit.network.contains ip = true) → ∃ i, t.slot ip = some i
  prefixesLe : ∀ i limit, t.networkPrefixLimit[i]? = some limit →
    t.prefixCount i ≤ max limit.connCount 0
  subnetsLe : ∀ j limit, t.connLimitPerSubnet[j]? = some limit → ∀ p,
    t.subnetCount j p ≤ max limit.connCount 0

theorem Tracks.exact {t : FamilyLimits} {mine : Addr → Bool} {live : List Addr}
    (h : Tracks t mine live) (hnets : t.networkPrefixLimit = sortNetworkPrefixes nets) :
    Exact t nets mine live where
  prefixes := fun i => by rw [prefixCount_eq, h.count]
  subnets := fun j limit hj p => (h.level hj).count p
  specific := fun ip i hslot => slot_specific hnets hslot
  covered := fun ip hin => slot_covered hnets hin
  prefixesLe := fun i limit hi => by
    have hle := h.le i
    rw [← prefixCount_eq, prefixLimit, hi] at hle
    exact hle
  subnetsLe := fun j limit hj p => (h.level hj).le p

end FamilyLimits

/-! ## Runs of the limiter -/

namespace ConnLimiter

/-- The tables of an address family. -/
def family (cl : ConnLimiter) (v6 : Bool) : FamilyLimits := if v6 then cl.v6 else cl.v4

/-- A limiter with the given limits for each family (`WithNetworkPrefixLimit`,
`WithLimitPerSubnet`). -/
def configured (nets : Bool → List NetworkPrefixLimit) (subnets : Bool → List ConnLimitPerSubnet) :
    ConnLimiter where
  v4 := { networkPrefixLimit := sortNetworkPrefixes (nets false), connLimitPerSubnet := subnets false }
  v6 := { networkPrefixLimit := sortNetworkPrefixes (nets true), connLimitPerSubnet := subnets true }

/-- The addresses of a family. -/
def mine (v6 : Bool) (a : Addr) : Bool := decide (a.is6 = v6)

theorem addConn_family (cl : ConnLimiter) (ip : Addr) (v6 : Bool) :
    (cl.addConn ip).1.family v6 =
      if ip.is6 = v6 then ((cl.family v6).addConn ip).1 else cl.family v6 := by
  cases ip with
  | v4 a | v6 a => cases v6 <;> rfl

theorem addConn_ok (cl : ConnLimiter) (ip : Addr) :
    (cl.addConn ip).2 = ((cl.family ip.is6).addConn ip).2 := by
  cases ip with
  | v4 a | v6 a => rfl

theorem rmConn_family (cl : ConnLimiter) (ip : Addr) (v6 : Bool) :
    (cl.rmConn ip).family v6 =
      if ip.is6 = v6 then (cl.family v6).rmConn ip else cl.family v6 := by
  cases ip with
  | v4 a | v6 a => cases v6 <;> rfl

/-- Both families count the live connections. -/
def Tracks (cl : ConnLimiter) (live : List Addr) : Prop :=
  ∀ v6, (cl.family v6).Tracks (mine v6) live

variable {cl : ConnLimiter} {ip : Addr} {live : List Addr}

theorem Tracks.addConn (h : Tracks cl live) (ip : Addr) :
    Tracks (cl.addConn ip).1 (if (cl.addConn ip).2 then ip :: live else live) := by
  intro v6
  rw [addConn_family, addConn_ok]
  split
  · rename_i heq
    rw [heq]
    exact (h v6).addConn (decide_eq_true heq)
  · rename_i hne
    split
    · exact (h v6).cons_other (decide_eq_false hne)
    · exact h v6

theorem Tracks.rmConn (h : Tracks cl live) (hmem : ip ∈ live) :
    Tracks (cl.rmConn ip) (live.erase ip) := by
  intro v6
  rw [rmConn_family]
  split
  · rename_i heq
    exact (h v6).rmConn (decide_eq_true heq) hmem
  · rename_i hne
    exact (h v6).erase_other (decide_eq_false hne) hmem

theorem tracks_configured (nets : Bool → List NetworkPrefixLimit)
    (subnets : Bool → List ConnLimitPerSubnet) : Tracks (configured nets subnets) [] := by
  intro v6
  cases v6 with
  | false | true => exact tracks_fresh _

/-- The limits of each family are those configured. -/
def HasLimits (cl : ConnLimiter) (nets : Bool → List NetworkPrefixLimit)
    (subnets : Bool → List ConnLimitPerSubnet) : Prop :=
  ∀ v6, (cl.family v6).networkPrefixLimit = sortNetworkPrefixes (nets v6) ∧
    (cl.family v6).connLimitPerSubnet = subnets v6

variable {nets : Bool → List NetworkPrefixLimit} {subnets : Bool → List ConnLimitPerSubnet}

theorem hasLimits_configured
    : HasLimits (configured nets subnets) nets subnets := by
  intro v6
  cases v6 with
  | false | true => exact ⟨rfl, rfl⟩

theorem HasLimits.addConn (h : HasLimits cl nets subnets) (ip : Addr) :
    HasLimits (cl.addConn ip).1 nets subnets := by
  intro v6
  rw [addConn_family]
  split
  · obtain ⟨hnets, hsubnets⟩ := addConn_limits
    rw [hnets, hsubnets]
    exact h v6
  · exact h v6

theorem HasLimits.rmConn (h : HasLimits cl nets subnets) :
    HasLimits (cl.rmConn ip) nets subnets := by
  intro v6
  rw [rmConn_family]
  split
  · obtain ⟨hnets, hsubnets⟩ := rmConn_limits
    rw [hnets, hsubnets]
    exact h v6
  · exact h v6

end ConnLimiter

inductive LimiterCall where
  | addConn (ip : Addr)
  | rmConn (ip : Addr)

/-- A limiter and the connections it admitted that were not removed. -/
structure LimiterRun where
  limiter : ConnLimiter
  live : List Addr := []

namespace LimiterRun

def step (s : LimiterRun) : LimiterCall → LimiterRun
  | .addConn ip =>
    { limiter := (s.limiter.addConn ip).1
      live := if (s.limiter.addConn ip).2 then ip :: s.live else s.live }
  | .rmConn ip => { limiter := s.limiter.rmConn ip, live := s.live.erase ip }

/-- Only a live connection is removed. -/
def Matched (s : LimiterRun) : LimiterCall → Prop
  | .addConn _ => True
  | .rmConn ip => ip ∈ s.live

instance (s : LimiterRun) : (call : LimiterCall) → Decidable (s.Matched call)
  | .addConn _ => isTrue trivial
  | .rmConn ip => inferInstanceAs (Decidable (ip ∈ s.live))

section Runs

variable {nets : Bool → List NetworkPrefixLimit} {subnets : Bool → List ConnLimitPerSubnet}
  {s : LimiterRun}

theorem reach_tracks (h : Reach step Matched ⟨configured nets subnets, []⟩ s) :
    s.limiter.Tracks s.live ∧ s.limiter.HasLimits nets subnets := by
  refine h.invariant (I := fun s => s.limiter.Tracks s.live ∧ s.limiter.HasLimits nets subnets)
    ⟨tracks_configured nets subnets,
      hasLimits_configured⟩ fun s call _ hok hinv => ?_
  cases call with
  | addConn ip => exact ⟨hinv.1.addConn ip, hinv.2.addConn ip⟩
  | rmConn ip => exact ⟨hinv.1.rmConn hok, hinv.2.rmConn⟩

end Runs

end LimiterRun

/-- In every state of the limiter the counts are those of the live connections and at
most their limit, or zero where the limit is negative. A refusal changes no count. -/
theorem limiter_counts (nets : Bool → List NetworkPrefixLimit)
    (subnets : Bool → List ConnLimitPerSubnet) (s : LimiterRun)
    (h : Reach LimiterRun.step LimiterRun.Matched ⟨ConnLimiter.configured nets subnets, []⟩ s)
    (v6 : Bool) :
    (s.limiter.family v6).Exact (nets v6) (ConnLimiter.mine v6) s.live ∧
      (s.limiter.family v6).connLimitPerSubnet = subnets v6 ∧
      ∀ ip, (s.limiter.addConn ip).2 = false →
        (∀ i, ((s.limiter.addConn ip).1.family v6).prefixCount i =
          (s.limiter.family v6).prefixCount i) ∧
        ∀ j p, j < (subnets v6).length → ((s.limiter.addConn ip).1.family v6).subnetCount j p =
          (s.limiter.family v6).subnetCount j p := by
  obtain ⟨htracks, hlimits⟩ := LimiterRun.reach_tracks h
  have hexact := (htracks v6).exact (hlimits v6).1
  refine ⟨hexact, (hlimits v6).2, fun ip hrefused => ?_⟩
  -- the counts after the call are those of the same connections under the same limits
  have hafter := htracks.addConn ip
  rw [hrefused, if_neg Bool.false_ne_true] at hafter
  have hexact' := (hafter v6).exact (hlimits.addConn ip v6).1
  have hslot : ((s.limiter.addConn ip).1.family v6).slot = (s.limiter.family v6).slot := by
    funext a
    unfold slot
    rw [(hlimits.addConn ip v6).1, (hlimits v6).1]
  constructor
  · intro i
    rw [hexact'.prefixes, hexact.prefixes]
    unfold inPrefix
    rw [hslot]
  · intro j p hj
    have hget := getElem?_eq_getElem hj
    rw [hexact'.subnets j _ (by rw [(hlimits.addConn ip v6).2, hget]) p,
      hexact.subnets j _ (by rw [(hlimits v6).2, hget]) p]
    unfold outside
    rw [hslot]

/-- A limit for one network, and one for every other address. -/
def smallNets (v6 : Bool) : List NetworkPrefixLimit :=
  if v6 then [] else [⟨⟨.v4 0x01020000#32, 16⟩, 4⟩]

def smallSubnets (v6 : Bool) : List ConnLimitPerSubnet :=
  if v6 then [⟨56, 8⟩, ⟨48, 64⟩] else [⟨32, 1⟩]

/-- One connection inside the network, one outside it, and a second one that is refused. -/
theorem limiter_counts_small :
    let s := [.addConn (.v4 0x01020304#32), .addConn (.v4 0x05060708#32),
      .addConn (.v4 0x05060708#32)].foldl LimiterRun.step
        ⟨configured smallNets smallSubnets, []⟩
    s.live = [.v4 0x05060708#32, .v4 0x01020304#32] ∧
      (s.limiter.family false).Exact (smallNets false) (mine false) s.live := by
  refine ⟨?_, (limiter_counts smallNets smallSubnets _ (.foldl .init ?_) false).1⟩
  · simp only [configured]
    decide +kernel
  · exact ⟨trivial, trivial, trivial, trivial⟩

/-- A negative limit refuses every connection, and the count of zero is above it. -/
theorem negative_limit_exceeded :
    ∃ (nets : Bool → List NetworkPrefixLimit) (subnets : Bool → List ConnLimitPerSubnet)
      (s : LimiterRun), Reach LimiterRun.step LimiterRun.Matched
          ⟨ConnLimiter.configured nets subnets, []⟩ s ∧
        ∃ i limit, (s.limiter.family false).networkPrefixLimit[i]? = some limit ∧
          limit.connCount < (s.limiter.family false).prefixCount i := by
  refine ⟨fun _ => [⟨⟨.v4 0#32, 0⟩, -1⟩], fun _ => [], _,
    .step (LimiterCall.addConn (.v4 0#32)) .init trivial,
    0, ⟨⟨.v4 0#32, 0⟩, -1⟩, ?_⟩
  decide +kernel

end Dep2p.Rcmgr
