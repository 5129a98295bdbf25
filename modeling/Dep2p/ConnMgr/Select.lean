import Dep2p.ConnMgr.Basic
import Dep2p.Lib.Greedy
import Mathlib.Data.Prod.Lex
import Mathlib.Data.List.Sort

/- Which connections a trim closes (`connmgr.go`).

   A trim sorts peers with a comparison of several keys (`less`) and takes whole peers
   from the front until enough connections are selected. The documented order is `rank`,
   a lexicographic one; `less` is its strict part. `sort.Slice` is not stable and the
   peers come out of a map, so the order of peers of equal rank is up to the `PeerSort`.

   Correspondence (Go ↔ Lean):
     the function given to `sort.Slice` in `SortByValueAndStreams` ↔ `less`
     `getConnsToClose`, `getConnsToCloseEmergency`                 ↔ the same names

   What is proved:
     1. `less_iff_rank` — the comparison is the documented order.
     2. `trim_closes_shortest` — a trim that is not disabled closes the shortest prefix of
        the unprotected peers past their grace period that leaves at most `lowWater` of
        their connections. -/
namespace Dep2p.ConnMgr

open Lib Rcmgr List PeerInfo

/-- What `Stat` says of a connection. -/
structure ConnStats where
  direction : Direction
  numStreams : Nat
  deriving DecidableEq, Repr

def incomingAndStreams (stat : Conn → ConnStats) (m : Table Conn Int) : Bool × Nat :=
  m.entries.foldl (fun acc e =>
    (acc.1 || (stat e.1).direction = .inbound, acc.2 + (stat e.1).numStreams)) (false, 0)

/-- `sortByMoreStreams` puts peers with more streams first, in the last place. -/
def less (stat : Conn → ConnStats) (sortByMoreStreams : Bool) (left right : PeerInfo) : Bool :=
  if left.temp ≠ right.temp then left.temp
  else if left.value ≠ right.value then left.value < right.value
  else
    let (leftIncoming, leftStreams) := incomingAndStreams stat left.conns
    let (rightIncoming, rightStreams) := incomingAndStreams stat right.conns
    if rightStreams ≠ leftStreams ∧ (leftStreams = 0 ∨ rightStreams = 0) then
      leftStreams < rightStreams
    else if leftIncoming ≠ rightIncoming then leftIncoming
    else if sortByMoreStreams then rightStreams < leftStreams
    else leftStreams < rightStreams

/-- What `sort.Slice` may leave: some order in which no peer comes after a greater one. -/
structure PeerSort (stat : Conn → ConnStats) (sortByMoreStreams : Bool) where
  sort : List PeerInfo → List PeerInfo
  perm : ∀ l, (sort l).Perm l
  sorted : ∀ l, (sort l).Pairwise fun a b => less stat sortByMoreStreams b a = false

/-- The connections of a peer, in the order of the loop over them. -/
def PeerInfo.connList (pi : PeerInfo) : List Conn := pi.conns.entries.map (·.1)

variable (cm : BasicConnMgr)

namespace BasicConnMgr

/-- The peers a trim considers: not protected, and past their grace period. -/
def candidates (cm : BasicConnMgr) (now : Int) : List PeerInfo :=
  (cm.peers.entries.filter fun e =>
    !cm.protects e.1 && !decide (now - cm.cfg.gracePeriod < e.2.firstSeen)).map (·.2)

/-- The loop of `getConnsToClose`: a temporary record without connections is deleted. -/
def closeLoop (peers : Table PeerID PeerInfo) (target : Int) :
    List PeerInfo → List Conn × Table PeerID PeerInfo
  | [] => ([], peers)
  | inf :: infs =>
    if target ≤ 0 then ([], peers)
    else if inf.connList.length = 0 ∧ inf.temp then closeLoop (peers.erase inf.id) target infs
    else
      let (selected, peers) := closeLoop peers (target - inf.connList.length) infs
      (inf.connList ++ selected, peers)

def getConnsToClose {stat : Conn → ConnStats} (sorter : PeerSort stat false) (now : Int) :
    List Conn × BasicConnMgr :=
  if cm.cfg.lowWater = 0 ∨ cm.cfg.highWater = 0 then ([], cm)
  else if cm.connCount.toInt ≤ cm.cfg.lowWater then ([], cm)
  else
    let candidates := cm.candidates now
    let ncandidates : Int := (candidates.flatMap PeerInfo.connList).length
    if ncandidates < cm.cfg.lowWater then ([], cm)
    else
      let (selected, peers) :=
        closeLoop cm.peers (ncandidates - cm.cfg.lowWater) (sorter.sort candidates)
      (selected, { cm with peers })

/-- The peers that are not protected. -/
def unprotected (cm : BasicConnMgr) : List PeerInfo :=
  (cm.peers.entries.filter fun e => !cm.protects e.1).map (·.2)

def allPeers : List PeerInfo := cm.peers.entries.map (·.2)

/-- The two passes of `getConnsToCloseEmergency`. -/
def selectEmergency {stat : Conn → ConnStats} (sorter : PeerSort stat true) (target : Int) :
    List Conn :=
  let (selected, target) := pick PeerInfo.connList target (sorter.sort cm.unprotected)
  if (selected.length : Int) ≥ target then selected
  else selected ++ (pick PeerInfo.connList target (sorter.sort cm.allPeers)).1

/-- `make` panics for a negative capacity and for one above `maxCap`, which is what there is
memory for. -/
def getConnsToCloseEmergency (maxCap : Nat) {stat : Conn → ConnStats}
    (sorter : PeerSort stat true) (target : Int) : Option (List Conn) :=
  if target + 10 < 0 ∨ maxCap < target + 10 then none else some (cm.selectEmergency sorter target)

/-- The number of connections the records hold. -/
def tracked : Nat := cm.peers.weight fun pi => pi.conns.entries.length

end BasicConnMgr

/-! ## The documented order -/

/-- Temporary records first, then lower values, then peers without streams, then those
with an incoming connection, then by the number of streams. -/
def rank (stat : Conn → ConnStats) (sortByMoreStreams : Bool) (pi : PeerInfo) :
    Bool ×ₗ Int ×ₗ Bool ×ₗ Bool ×ₗ Int :=
  let (incoming, streams) := incomingAndStreams stat pi.conns
  toLex (!pi.temp, toLex (pi.value.toInt, toLex (decide (streams ≠ 0), toLex (!incoming,
    if sortByMoreStreams then -(streams : Int) else streams))))

variable {stat : Conn → ConnStats} {more : Bool}

/-- The keys after the value: no streams before some, incoming before outgoing, then by
number. -/
theorem streams_lt_iff (li ri : Bool) (ls rs : Nat) :
    (if rs ≠ ls ∧ (ls = 0 ∨ rs = 0) then decide (ls < rs)
      else if li ≠ ri then li else if more then decide (rs < ls) else decide (ls < rs)) = true ↔
    toLex (decide (ls ≠ 0), toLex (!li, if more then -(ls : Int) else ls)) <
      toLex (decide (rs ≠ 0), toLex (!ri, if more then -(rs : Int) else rs)) := by
  simp only [Prod.Lex.toLex_lt_toLex]
  by_cases hl : ls = 0
  · by_cases hr : rs = 0
    · cases li <;> cases ri <;> cases more <;> simp [hl, hr]
    · simp [hl, hr]
      omega
  · by_cases hr : rs = 0
    · have hzero : ¬ 0 = ls := fun h => hl h.symm
      simp [hl, hr, hzero]
    · cases li <;> cases ri <;> cases more <;> simp [hl, hr]

theorem less_iff_rank (l r : PeerInfo) : less stat more l r ↔ rank stat more l < rank stat more r := by
  have hval : ∀ a b : Int64, a.toInt = b.toInt ↔ a = b := fun a b => Int64.toInt_inj
  simp only [less, rank, Prod.Lex.toLex_lt_toLex (β := Int ×ₗ Bool ×ₗ Bool ×ₗ Int),
    Prod.Lex.toLex_lt_toLex (β := Bool ×ₗ Bool ×ₗ Int), Int64.lt_iff_toInt_lt, hval]
  by_cases ht : l.temp = r.temp
  · by_cases hv : l.value = r.value
    · rw [← streams_lt_iff]
      simp [ht, hv]
    · simp [ht, hv]
  · cases hl : l.temp <;> cases hr : r.temp <;> simp_all

theorem not_less_iff_rank (l r : PeerInfo) :
    less stat more l r = false ↔ rank stat more r ≤ rank stat more l := by
  rw [← Bool.not_eq_true, less_iff_rank, not_lt]

/-- Sorted peers are in the documented order. -/
theorem PeerSort.ranked (sorter : PeerSort stat more) (l : List PeerInfo) :
    (sorter.sort l).Pairwise fun a b => rank stat more a ≤ rank stat more b :=
  (sorter.sorted l).imp fun h => (not_less_iff_rank _ _).mp h

/-- The stable order. -/
def PeerSort.stable (stat : Conn → ConnStats) (more : Bool) : PeerSort stat more where
  sort l := l.insertionSort fun a b => less stat more b a = false
  perm l := perm_insertionSort _ l
  sorted l := by
    have : Std.Total fun a b : PeerInfo => less stat more b a = false := by
      refine ⟨fun a b => ?_⟩
      rw [not_less_iff_rank, not_less_iff_rank]
      exact le_total _ _
    have : IsTrans PeerInfo fun a b => less stat more b a = false := by
      refine ⟨fun a b c hab hbc => ?_⟩
      rw [not_less_iff_rank] at hab hbc ⊢
      exact hab.trans hbc
    exact pairwise_insertionSort _ l

/-! ## An ordinary trim -/

namespace BasicConnMgr

/-- `n` is the length of the shortest prefix of `order` whose connections must go to
leave at most `lowWater`; it is the whole list where that is never reached. -/
structure ShortestTrim (lowWater : Int) (order : List PeerInfo) (n : Nat) : Prop where
  le : n ≤ order.length
  leaves : ((order.flatMap PeerInfo.connList).length : Int) -
    (bundled PeerInfo.connList order n).length ≤ lowWater ∨ n = order.length
  least : ∀ m, m < n → lowWater < ((order.flatMap PeerInfo.connList).length : Int) -
    (bundled PeerInfo.connList order m).length

variable {order : List PeerInfo} {lowWater : Int}

theorem ShortestTrim.of_shortest {n : Nat}
    (h : Shortest connList ((order.flatMap connList).length - lowWater) order n) :
    ShortestTrim lowWater order n := by
  refine ⟨h.le, ?_, ?_⟩
  · rcases h.enough with henough | hall
    · left
      omega
    · exact .inr hall
  · intro m hm
    have := h.least m hm
    omega

theorem closeLoop_selected (infs : List PeerInfo) (peers : Table PeerID PeerInfo) (target : Int) :
    (closeLoop peers target infs).1 = (pick connList target infs).1 := by
  induction infs generalizing peers target with
  | nil => rfl
  | cons inf infs ih =>
    unfold closeLoop pick
    split
    · rfl
    split
    · -- a record without connections adds nothing and leaves the target
      rename_i hempty
      have hnil : inf.connList = [] := length_eq_zero_iff.mp hempty.1
      simp [hnil, ih]
    · dsimp only
      rw [ih]

theorem length_flatMap_perm {l l' : List PeerInfo} (h : l.Perm l') :
    (l.flatMap connList).length = (l'.flatMap connList).length :=
  (h.flatMap_right _).length_eq

/-- What the candidates hold is part of what is tracked. -/
theorem length_candidates_le (now : Int) :
    ((cm.candidates now).flatMap connList).length ≤ cm.tracked := by
  unfold candidates tracked Table.weight
  rw [length_flatMap, map_map]
  apply Sublist.sum_le_sum
  · have hmap : (fun pi : PeerInfo => pi.connList.length) ∘ (fun e : PeerID × PeerInfo => e.2) =
        fun e => e.2.conns.entries.length := by
      funext e
      exact length_map _
    rw [← hmap]
    exact .map _ filter_sublist
  · intro n _
    exact n.zero_le

/-- Where nothing has to go the empty prefix is the shortest. -/
theorem ShortestTrim.nothing
    (h : ((order.flatMap connList).length : Int) ≤ lowWater) :
    ShortestTrim lowWater order 0 := by
  apply of_shortest
  apply Shortest.zero
  omega

/-- In every case a prefix of the sorted candidates is selected. -/
theorem selected_prefix (hcount : cm.connCount.toInt = cm.tracked) (sorter : PeerSort stat false)
    (now : Int) :
    ∃ n, (cm.getConnsToClose sorter now).1 =
        bundled connList (sorter.sort (cm.candidates now)) n ∧
      (cm.cfg.lowWater ≠ 0 → cm.cfg.highWater ≠ 0 →
        ShortestTrim cm.cfg.lowWater (sorter.sort (cm.candidates now)) n) := by
  have hlen := length_flatMap_perm (sorter.perm (cm.candidates now))
  have hall := cm.length_candidates_le now
  dsimp only [getConnsToClose]
  split
  · rename_i hoff
    refine ⟨0, rfl, fun hlow hhigh => ?_⟩
    rcases hoff with hoff | hoff
    · exact absurd hoff hlow
    · exact absurd hoff hhigh
  · split
    · -- the candidates hold no more than all peers do
      refine ⟨0, rfl, fun _ _ => .nothing ?_⟩
      omega
    · split
      · rename_i hfew
        refine ⟨0, rfl, fun _ _ => .nothing ?_⟩
        omega
      · obtain ⟨n, hn, hpicked, _⟩ := pick_spec connList
          (((cm.candidates now).flatMap connList).length - cm.cfg.lowWater)
          (sorter.sort (cm.candidates now))
        refine ⟨n, ?_, fun _ _ => ?_⟩
        · rw [← hpicked, ← closeLoop_selected]
        · rw [← hlen] at hn
          exact .of_shortest hn

/-- The connections a trim is to select. -/
structure Trims (cm : BasicConnMgr) (stat : Conn → ConnStats) (now : Int)
    (selected : List Conn) : Prop where
  /-- Only peers that are neither protected nor in their grace period lose connections. -/
  safe : ∀ c ∈ selected, ∃ p pi, (p, pi) ∈ cm.peers.entries ∧ c ∈ pi.connList ∧
    cm.protects p = false ∧ pi.firstSeen ≤ now - cm.cfg.gracePeriod
  below : cm.connCount.toInt ≤ cm.cfg.lowWater → selected = []
  /-- A water mark of zero disables trimming. -/
  disabled : cm.cfg.lowWater = 0 ∨ cm.cfg.highWater = 0 → selected = []
  shortest : cm.cfg.lowWater ≠ 0 → cm.cfg.highWater ≠ 0 →
    ∃ order n, order.Perm (cm.candidates now) ∧
      (order.Pairwise fun a b => rank stat false a ≤ rank stat false b) ∧
      selected = bundled PeerInfo.connList order n ∧ ShortestTrim cm.cfg.lowWater order n

theorem trim_closes_shortest (cm : BasicConnMgr) (hcount : cm.connCount.toInt = cm.tracked)
    (sorter : PeerSort stat false) (now : Int) :
    Trims cm stat now (cm.getConnsToClose sorter now).1 := by
  obtain ⟨n, hsel, htrim⟩ := selected_prefix cm hcount sorter now
  refine ⟨?_, ?_, ?_, ?_⟩
  · intro c hc
    rw [hsel] at hc
    obtain ⟨pi, hpi, hcpi⟩ := mem_flatMap.mp hc
    have hcand := (sorter.perm _).mem_iff.mp (mem_of_mem_take hpi)
    obtain ⟨⟨p, pi'⟩, hmem, rfl⟩ := mem_map.mp hcand
    obtain ⟨hmem, hok⟩ := mem_filter.mp hmem
    simp only [Bool.and_eq_true, Bool.not_eq_true', decide_eq_false_iff_not, not_lt] at hok
    exact ⟨p, pi', hmem, hcpi, hok.1, hok.2⟩
  · intro hle
    dsimp only [getConnsToClose]
    split <;> rfl
  · intro hoff
    dsimp only [getConnsToClose]
    rw [if_pos hoff]
  · intro hlow hhigh
    exact ⟨_, n, sorter.perm _, sorter.ranked _, hsel, htrim hlow hhigh⟩

/-- Two connections of the peer 1, one each of 2, which is protected, and of 3, which is
new; 4 has early tags only. -/
def crowded (lowWater : Nat) : BasicConnMgr :=
  ((((((({ cfg := ⟨5, lowWater, 10⟩ } : BasicConnMgr).connected ⟨0, .single 1⟩ 0).connected
    ⟨1, .single 1⟩ 1).connected ⟨2, .single 2⟩ 2).connected ⟨3, .single 3⟩ 95).tagPeer
    (.single 4) "early" 7 3).protect (.single 2) "keep").tagPeer (.single 1) "t" 1 5

def idleStats : Conn → ConnStats := fun _ => ⟨.inbound, 0⟩

theorem trim_closes_shortest_crowded :
    Trims (crowded 1) idleStats 100 ((crowded 1).getConnsToClose (.stable idleStats false) 100).1 ∧
      ((crowded 1).getConnsToClose (.stable idleStats false) 100).1 =
        [⟨1, .single 1⟩, ⟨0, .single 1⟩] :=
  ⟨trim_closes_shortest (crowded 1) (by decide +kernel) _ 100, by decide +kernel⟩

/-- With a low-water mark of zero the candidates keep their two connections, and no
prefix that leaves at most that many is selected. -/
theorem zero_lowWater_trims_nothing :
    (crowded 0).connCount.toInt = (crowded 0).tracked ∧
      ((crowded 0).getConnsToClose (.stable idleStats false) 100).1 = [] ∧
      ¬ ∃ order n, order.Perm ((crowded 0).candidates 100) ∧
        ((crowded 0).getConnsToClose (.stable idleStats false) 100).1 =
          bundled PeerInfo.connList order n ∧ ShortestTrim (crowded 0).cfg.lowWater order n := by
  have hnone : ((crowded 0).getConnsToClose (.stable idleStats false) 100).1 = [] := by decide +kernel
  refine ⟨by decide +kernel, hnone, ?_⟩
  rintro ⟨order, n, hperm, hsel, htrim⟩
  have hlen := length_flatMap_perm hperm
  have htwo : (((crowded 0).candidates 100).flatMap connList).length = 2 := by
    decide +kernel
  rcases htrim.leaves with hleaves | hall
  · rw [← hsel, hlen] at hleaves
    exact absurd hleaves (by decide)
  · rw [hall, bundled_all] at hsel
    rw [← hsel] at hlen
    cases hlen

end BasicConnMgr

end Dep2p.ConnMgr
