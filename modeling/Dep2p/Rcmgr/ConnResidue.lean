import Dep2p.Rcmgr.ConnCounts

/- What refused connections leave in the tables of the limiter (`conn_limiter.go`).

   `addConn` looks at one subnet limit after the other, and a look creates the entry it does
   not find. When a later limit refuses, the entries of the earlier ones stay with a count
   of zero, and only an admitted connection of the same subnet ever removes them. A call is
   `Clean` when nothing is left: a network prefix decides, every limit has room, or every
   subnet the loop comes to has an entry already.

   What is proved:
     `limiter_residue_iff` — the tables have entries for exactly the subnets with a live
     connection, all along a run, if and only if every `addConn` of it was clean. -/
namespace Dep2p.Rcmgr

open Lib List ConnLimiter FamilyLimits

namespace FamilyLimits

section Levels

variable {ip : Addr} {limit : ConnLimitPerSubnet} {table : SubnetCounts}

/-- No entry of the table counts nothing. -/
def Proper (table : SubnetCounts) : Prop := ∀ p, table p ≠ some 0

/-- Every subnet the first loop comes to has an entry. -/
def Looked (ip : Addr) : List ConnLimitPerSubnet → List SubnetCounts → Prop
  | limit :: limits, table :: tables => ∀ p, ip.toPrefix limit.prefixLength = some p →
    (table p).isSome = true ∧ ((table p).getD 0 + 1 ≤ limit.connCount → Looked ip limits tables)
  | _, _ => True

variable {p : NetPrefix}

theorem touch_of_some (h : (table p).isSome = true) : touch table p = table := by
  cases hp : table p with
  | some n => simp only [touch, hp]
  | none => simp [hp] at h

/-- A look keeps a table proper only where it finds an entry. -/
theorem proper_touch (h : Proper table) : Proper (touch table p) ↔ (table p).isSome = true := by
  constructor
  · intro htouch
    cases hp : table p with
    | some n => rfl
    | none =>
      have hzero : touch table p p = some 0 := by simp [touch, hp]
      exact absurd hzero (htouch p)
  · intro hp
    rw [touch_of_some hp]
    exact h

/-- A count makes up for the look. -/
theorem bump_touch (hp : ip.toPrefix limit.prefixLength = some p) :
    bump ip limit (touch table p) = bump ip limit table := by
  simp only [bump, hp, touch_getD]
  cases htable : table p with
  | some n => simp only [touch, htable]
  | none => simp only [touch, htable, Function.update_idem]

theorem zipWith_bump_checkLevels (limits : List ConnLimitPerSubnet) (tables : List SubnetCounts) :
    zipWith (bump ip) limits (checkLevels ip limits tables).1 =
      zipWith (bump ip) limits tables := by
  induction limits generalizing tables with
  | nil => rfl
  | cons limit limits ih =>
    cases tables with
    | nil => rfl
    | cons table tables =>
      rw [checkLevels]
      split
      · rfl
      rename_i p hp
      split
      · rw [zipWith_cons_cons, zipWith_cons_cons, bump_touch hp]
      · rw [zipWith_cons_cons, zipWith_cons_cons, bump_touch hp, ih]

/-- A refusing first loop keeps the tables proper only where it finds all entries. -/
theorem checkLevels_proper {limits : List ConnLimitPerSubnet} {tables : List SubnetCounts}
    (h : ∀ table ∈ tables, Proper table) (hrefused : (checkLevels ip limits tables).2 = false) :
    (∀ table ∈ (checkLevels ip limits tables).1, Proper table) ↔ Looked ip limits tables := by
  induction limits generalizing tables with
  | nil => simp [checkLevels] at hrefused
  | cons limit limits ih =>
    cases tables with
    | nil => simp [checkLevels] at hrefused
    | cons table tables =>
      obtain ⟨hhead, htail⟩ := forall_mem_cons.mp h
      cases hp : ip.toPrefix limit.prefixLength with
      | none =>
        simp only [checkLevels, Looked, hp]
        exact ⟨fun _ p hnone => (by cases hnone), fun _ => h⟩
      | some p =>
        simp only [checkLevels, Looked, hp, Option.some.injEq, forall_eq'] at hrefused ⊢
        by_cases hfull : (table p).getD 0 + 1 > limit.connCount
        · rw [if_pos hfull, forall_mem_cons, proper_touch hhead]
          exact ⟨fun hboth => ⟨hboth.1, fun hle => absurd hle (Int.not_le.mpr hfull)⟩,
            fun hboth => ⟨hboth.1, htail⟩⟩
        · rw [if_neg hfull] at hrefused ⊢
          rw [forall_mem_cons, proper_touch hhead, ih htail hrefused]
          exact and_congr_right fun _ => ⟨fun hlooked _ => hlooked,
            fun himp => himp (Int.not_lt.mp hfull)⟩

variable {outside : Addr → Bool} {live : List Addr}

theorem Proper.bump (h : Proper table)
    (hlevel : Level outside live limit table) : Proper (bump ip limit table) := by
  intro q
  cases hp : ip.toPrefix limit.prefixLength with
  | none =>
    simp only [FamilyLimits.bump, hp]
    exact h q
  | some p =>
    simp only [FamilyLimits.bump, hp, Function.update_apply]
    split
    · intro hzero
      have hcount := hlevel.count p
      have := Option.some.inj hzero
      omega
    · exact h q

theorem Proper.unbump (h : Proper table) : Proper (unbump ip limit table) := by
  intro q
  cases hp : ip.toPrefix limit.prefixLength with
  | none =>
    simp only [FamilyLimits.unbump, hp]
    exact h q
  | some p =>
    cases htable : table p with
    | none =>
      simp only [FamilyLimits.unbump, hp, htable]
      exact h q
    | some n =>
      simp only [FamilyLimits.unbump, hp, htable]
      split
      · exact h q
      rw [Function.update_apply]
      split
      · split
        · simp
        · intro hzero
          have := Option.some.inj hzero
          omega
      · exact h q

/-- In a table that counts, the proper entries are those of the subnets with connections. -/
theorem Level.proper_iff
    (h : Level outside live limit table) :
    Proper table ↔
      ∀ p, (table p).isSome = true ↔ ∃ a ∈ live, inSubnet outside limit p a = true := by
  have hiff : ∀ p, (∃ a ∈ live, inSubnet outside limit p a = true) ↔ (table p).getD 0 ≠ 0 := by
    intro p
    rw [← countP_pos_iff, h.count]
    omega
  constructor
  · intro hproper p
    rw [hiff]
    cases hp : table p with
    | none => simp
    | some n => simpa [hp] using hproper p
  · intro hall p hzero
    have := (hiff p).mp ((hall p).mp (by rw [hzero]; rfl))
    rw [hzero] at this
    exact this rfl

end Levels

/-! ## One address family -/

section Family

variable {t : FamilyLimits} {ip : Addr} {mine : Addr → Bool} {live : List Addr}

/-- Nothing is left by this call: a network prefix decides, every subnet limit has room, or
every subnet looked at has an entry. -/
def Clean (t : FamilyLimits) (ip : Addr) : Prop :=
  t.slot ip = none →
    List.Forall₂ (Room ip) t.connLimitPerSubnet t.levels ∨ Looked ip t.connLimitPerSubnet t.levels

theorem addConn_proper (ip : Addr) (h : Tracks t mine live) (hproper : ∀ table ∈ t.levels, Proper table) :
    (∀ table ∈ (t.addConn ip).1.levels, Proper table) ↔ t.Clean ip := by
  have hlen := h.levels.length_eq.symm
  cases hslot : t.slot ip with
  | some i =>
    have hclean : t.Clean ip := fun hnone => absurd (hslot.symm.trans hnone) (by simp)
    rw [addConn_inside hslot]
    refine iff_of_true ?_ hclean
    split
    all_goals
      rw [levels_withPrefixes]
      exact hproper
  | none =>
    have hlevels : ∀ tables, tables.length = t.connLimitPerSubnet.length →
        levels { t with connsPerNetworkPrefix := t.prefixCounts, connsPerLimit := tables } =
          tables := fun tables hlen' =>
      levels_mk (t := { t with connsPerNetworkPrefix := t.prefixCounts }) hlen'
    have hlooked : List.Forall₂ (Level (t.outside mine) live) t.connLimitPerSubnet
        (checkLevels ip t.connLimitPerSubnet t.levels).1 :=
      checkLevels_forall₂ (fun limit table p hl => hl.touch p) h.levels
    have hclean : t.Clean ip ↔ List.Forall₂ (Room ip) t.connLimitPerSubnet t.levels ∨
        Looked ip t.connLimitPerSubnet t.levels := by simp [Clean, hslot]
    rw [addConn_outside hslot hlen, hclean, ← checkLevels_iff hlen]
    cases hok : (checkLevels ip t.connLimitPerSubnet t.levels).2 with
    | false =>
      rw [if_neg Bool.false_ne_true, hlevels _ hlooked.length_eq.symm, checkLevels_proper hproper hok]
      simp
    | true =>
      rw [if_pos rfl, zipWith_bump_checkLevels, hlevels _ (by simp [hlen])]
      refine iff_of_true (fun table hmem => ?_) (.inl rfl)
      obtain ⟨j, hj, rfl⟩ := mem_iff_getElem.mp hmem
      rw [getElem_zipWith]
      exact (hproper _ (getElem_mem _)).bump (h.levels.get _ _)

theorem rmConn_proper (h : Tracks t mine live) (hproper : ∀ table ∈ t.levels, Proper table) :
    ∀ table ∈ (t.rmConn ip).levels, Proper table := by
  have hlen := h.levels.length_eq.symm
  cases hslot : t.slot ip with
  | some i =>
    rw [rmConn_inside hslot, levels_withPrefixes]
    exact hproper
  | none =>
    rw [rmConn_outside hslot hlen,
      levels_mk (t := { t with connsPerNetworkPrefix := t.prefixCounts }) (by simp [hlen])]
    intro table hmem
    obtain ⟨j, hj, rfl⟩ := mem_iff_getElem.mp hmem
    rw [getElem_zipWith]
    exact (hproper _ (getElem_mem _)).unbump

/-- The tables have entries for exactly the subnets with a live connection. -/
def NoResidue (t : FamilyLimits) (mine : Addr → Bool) (live : List Addr) : Prop :=
  ∀ j limit, t.connLimitPerSubnet[j]? = some limit → ∀ p,
    (t.subnetTable j p).isSome = true ↔ ∃ a ∈ live, inSubnet (t.outside mine) limit p a = true

theorem Tracks.noResidue_iff (h : Tracks t mine live) :
    NoResidue t mine live ↔ ∀ table ∈ t.levels, Proper table := by
  have hlen := h.levels.length_eq
  constructor
  · intro hall table hmem
    obtain ⟨j, hj, rfl⟩ := mem_iff_getElem.mp hmem
    have hlimit := getElem?_eq_getElem (hlen.symm ▸ hj : j < t.connLimitPerSubnet.length)
    have htable : t.subnetTable j = t.levels[j] := by
      rw [subnetTable_eq, getD_eq_getElem?_getD, getElem?_eq_getElem hj]
      rfl
    rw [← htable, (h.level hlimit).proper_iff]
    exact hall j _ hlimit
  · intro hproper j limit hj
    refine (h.level hj).proper_iff.mp (hproper _ ?_)
    obtain ⟨hlt, _⟩ := List.getElem?_eq_some_iff.mp hj
    have hlt' : j < t.levels.length := hlen ▸ hlt
    rw [subnetTable_eq, getD_eq_getElem?_getD, getElem?_eq_getElem hlt']
    exact getElem_mem hlt'

end Family

end FamilyLimits

/-! ## Runs of the limiter -/

namespace LimiterRun

/-- Neither family has entries without connections. -/
def NoResidue (s : LimiterRun) : Prop :=
  ∀ v6, (s.limiter.family v6).NoResidue (ConnLimiter.mine v6) s.live

def CleanCall (s : LimiterRun) : LimiterCall → Prop
  | .addConn ip => (s.limiter.family ip.is6).Clean ip
  | .rmConn _ => True

theorem step_noResidue {s : LimiterRun} (htracks : s.limiter.Tracks s.live) (call : LimiterCall)
    (hok : s.Matched call) (h : s.NoResidue) : (s.step call).NoResidue ↔ s.CleanCall call := by
  have hproper : ∀ v6, ∀ table ∈ (s.limiter.family v6).levels, FamilyLimits.Proper table :=
    fun v6 => (htracks v6).noResidue_iff.mp (h v6)
  cases call with
  | addConn ip =>
    have hfam : ∀ v6, ((s.step (.addConn ip)).limiter.family v6).NoResidue (mine v6)
        (s.step (.addConn ip)).live ↔
          ∀ table ∈ ((s.limiter.addConn ip).1.family v6).levels, FamilyLimits.Proper table :=
      fun v6 => (htracks.addConn ip v6).noResidue_iff
    have hiff := addConn_proper ip (htracks ip.is6) (hproper ip.is6)
    constructor
    · intro hnext
      have hmine := (hfam ip.is6).mp (hnext ip.is6)
      rw [addConn_family, if_pos rfl] at hmine
      exact hiff.mp hmine
    · intro hclean v6
      rw [hfam, addConn_family]
      split
      · rename_i heq
        subst heq
        exact hiff.mpr hclean
      · exact hproper v6
  | rmConn ip =>
    refine iff_of_true (fun v6 => ?_) trivial
    refine (htracks.rmConn hok v6).noResidue_iff.mpr ?_
    rw [rmConn_family]
    split
    · exact rmConn_proper (htracks v6) (hproper v6)
    · exact hproper v6

theorem noResidue_configured (nets : Bool → List NetworkPrefixLimit)
    (subnets : Bool → List ConnLimitPerSubnet) :
    NoResidue ⟨configured nets subnets, []⟩ := by
  intro v6 j limit _ p
  cases v6 with
  | false | true => simp [family, configured, subnetTable]

end LimiterRun

/-- Along a sequence of calls the tables have entries for exactly the subnets with a live
connection, if and only if every `addConn` was clean in its state. -/
theorem limiter_residue_iff (nets : Bool → List NetworkPrefixLimit)
    (subnets : Bool → List ConnLimitPerSubnet) (calls : List LimiterCall)
    (hmatched : Reach.Admits LimiterRun.step LimiterRun.Matched
      ⟨ConnLimiter.configured nets subnets, []⟩ calls) :
    (∀ k, LimiterRun.NoResidue ((calls.take k).foldl LimiterRun.step
        ⟨ConnLimiter.configured nets subnets, []⟩)) ↔
      Reach.Admits LimiterRun.step LimiterRun.CleanCall
        ⟨ConnLimiter.configured nets subnets, []⟩ calls :=
  Reach.along_iff (fun _ call hreach hok h =>
      LimiterRun.step_noResidue (LimiterRun.reach_tracks hreach).1 call hok h)
    .init (LimiterRun.noResidue_configured nets subnets) hmatched

/-- A connection, a second one of the same address that is refused, and the removal of the
first leave nothing. -/
theorem limiter_residue_small :
    LimiterRun.NoResidue (([LimiterCall.addConn (.v4 1#32), .addConn (.v4 1#32),
      .rmConn (.v4 1#32)].take 3).foldl LimiterRun.step
        ⟨ConnLimiter.configured (fun _ => []) smallSubnets, []⟩) := by
  have hconf : configured (fun _ => []) smallSubnets =
      ⟨{ networkPrefixLimit := [], connLimitPerSubnet := smallSubnets false },
        { networkPrefixLimit := [], connLimitPerSubnet := smallSubnets true }⟩ := by
    simp [configured, sortNetworkPrefixes]
  refine (limiter_residue_iff (fun _ => []) smallSubnets _ ?_).mpr ?_ 3
  · rw [hconf]
    exact ⟨trivial, trivial, by decide +kernel, trivial⟩
  · rw [hconf]
    refine ⟨fun _ => .inl (.cons ⟨⟨.v4 1#32, 32⟩, by decide +kernel, by decide +kernel⟩ .nil),
      fun _ => .inr fun p hp => ?_, trivial, trivial⟩
    obtain rfl : ⟨.v4 1#32, 32⟩ = p := Option.some.inj ((by decide +kernel :
      some (⟨.v4 1#32, 32⟩ : NetPrefix) = (Addr.v4 1#32).toPrefix 32).trans hp)
    exact ⟨by decide +kernel, fun _ => trivial⟩

/-- A limit of one connection for 48 bits: a second address of the same network is refused
there, and its entry at 56 bits outlives every connection. -/
theorem refusal_leaves_entry :
    let s := [.addConn (.v6 0x20010db8000000000000000000000001#128),
        .addConn (.v6 0x20010db8000001000000000000000001#128),
        .rmConn (.v6 0x20010db8000000000000000000000001#128)].foldl LimiterRun.step
      ⟨configured (fun _ => []) (fun _ => [⟨56, 8⟩, ⟨48, 1⟩]), []⟩
    s.live = [] ∧ (s.limiter.family true).subnetTable 0
      ⟨.v6 0x20010db8000001000000000000000000#128, 56⟩ = some 0 ∧ ¬ s.NoResidue := by
  refine ⟨by decide +kernel, by decide +kernel, fun h => ?_⟩
  have hentry := (h true 0 ⟨56, 8⟩ (by decide +kernel)
    ⟨.v6 0x20010db8000001000000000000000000#128, 56⟩).mp (by decide +kernel)
  exact absurd hentry (by decide +kernel)

end Dep2p.Rcmgr
