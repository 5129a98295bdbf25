import Dep2p.ConnMgr.Select

/- Emergency trims (`getConnsToCloseEmergency`).

   A first pass takes unprotected peers until the target is met. What is left of the
   target is then compared with the number of connections already selected, and a second
   pass over all peers, the unprotected ones once more, runs only if that number is
   smaller.

   So the trim returns too little when the first pass selects at least half of the target
   and protected peers have connections, and it returns connections twice when the second
   pass comes to an unprotected peer. Before the first pass `make` panics for a target
   below -10 and for one with no memory for its connections.

   What is proved:
     1. `frees_first`, `frees_all_iff`, `frees_second_iff` — what each way through the
        function returns is what is asked for, or when it is.
     2. `emergency_frees_enough_iff` — the trim does what it is for, whatever the order of
        peers of equal rank, exactly under `EmergencyOk` and for targets `make` takes. -/
namespace Dep2p.ConnMgr

open Lib Rcmgr List PeerInfo

variable {stat : Conn → ConnStats}

namespace BasicConnMgr

/-- Records are filed under their peer, and so are the connections. -/
structure WellFormed (cm : BasicConnMgr) : Prop where
  keyed : cm.peers.Keyed
  id : ∀ p pi, (p, pi) ∈ cm.peers.entries → pi.id = p
  conns : ∀ p pi, (p, pi) ∈ cm.peers.entries → pi.conns.Keyed
  remotePeer : ∀ p pi, (p, pi) ∈ cm.peers.entries → ∀ c ∈ pi.connList, c.remotePeer = p

/-- The open connections of unprotected peers. -/
def openUnprotected (cm : BasicConnMgr) : List Conn := cm.unprotected.flatMap PeerInfo.connList

/-- All open connections. -/
def openConns (cm : BasicConnMgr) : List Conn := cm.allPeers.flatMap PeerInfo.connList

/-- What an emergency trim with target `n` is to select: distinct connections, enough of
them, and those of protected peers only with all others. -/
structure Frees (cm : BasicConnMgr) (n : Int) (selected : List Conn) : Prop where
  distinct : selected.Nodup
  enough : min n cm.openConns.length ≤ selected.length
  spares : (∃ p pi c, (p, pi) ∈ cm.peers.entries ∧ cm.protects p ∧ c ∈ pi.connList ∧
    c ∈ selected) → ∀ c ∈ cm.openUnprotected, c ∈ selected

/-- Whether a peer sorts before every unprotected peer that has connections. -/
def sortsAhead (cm : BasicConnMgr) (stat : Conn → ConnStats) (q : PeerInfo) : Bool :=
  cm.unprotected.all fun u => u.connList.isEmpty || less stat true q u

/-- The open connections of the peers that sort before every unprotected peer with
connections. -/
def openAhead (cm : BasicConnMgr) (stat : Conn → ConnStats) : List Conn :=
  (cm.allPeers.filter (cm.sortsAhead stat)).flatMap PeerInfo.connList

/-- Enough unprotected connections, none at all, all there are with a target of at most
twice as many, or the rest of the target met by peers that sort before them. -/
def EmergencyOk (cm : BasicConnMgr) (stat : Conn → ConnStats) (n : Int) : Prop :=
  n ≤ cm.openUnprotected.length ∨ cm.openUnprotected = [] ∨
    (n ≤ 2 * cm.openUnprotected.length ∧ cm.openUnprotected.length = cm.openConns.length) ∨
    (2 * cm.openUnprotected.length < n ∧
      n - cm.openUnprotected.length ≤ (cm.openAhead stat).length)

variable {cm : BasicConnMgr} {n : Int} {pi u : PeerInfo} {c : Conn} {l : List PeerInfo}

section

variable (h : cm.WellFormed)
include h

theorem WellFormed.mem_allPeers : pi ∈ cm.allPeers ↔ (pi.id, pi) ∈ cm.peers.entries := by
  unfold allPeers
  rw [mem_map]
  constructor
  · rintro ⟨⟨p, pi'⟩, hmem, rfl⟩
    have hid := h.id p pi' hmem
    rw [hid]
    exact hmem
  · intro hmem
    exact ⟨_, hmem, rfl⟩

theorem WellFormed.unprotected_eq :
    cm.unprotected = cm.allPeers.filter fun pi => !cm.protects pi.id := by
  unfold unprotected allPeers
  rw [filter_map]
  congr 1
  apply filter_congr
  rintro ⟨p, pi⟩ hmem
  simp [h.id p pi hmem]

theorem WellFormed.nodup_allPeers : cm.allPeers.Nodup := by
  have hmap : cm.peers.entries.map (·.1) = cm.allPeers.map (·.id) := by
    unfold allPeers
    rw [map_map]
    apply map_congr_left
    rintro ⟨p, pi⟩ hmem
    exact (h.id p pi hmem).symm
  have hkeys := h.keyed
  unfold Table.Keyed at hkeys
  rw [hmap] at hkeys
  exact .of_map _ hkeys

/-- A connection is open at one peer. -/
theorem WellFormed.unique (hpi : pi ∈ cm.allPeers) (hu : u ∈ cm.allPeers) (hcpi : c ∈ pi.connList)
    (hcu : c ∈ u.connList) : pi = u := by
  have hpi := h.mem_allPeers.mp hpi
  have hu := h.mem_allPeers.mp hu
  have hid : pi.id = u.id := (h.remotePeer _ _ hpi c hcpi).symm.trans (h.remotePeer _ _ hu c hcu)
  rw [h.keyed.mem_iff] at hpi hu
  rw [hid, hu] at hpi
  exact (Option.some.inj hpi).symm

theorem WellFormed.nodup_flatMap (hl : l.Nodup) (hsub : ∀ pi ∈ l, pi ∈ cm.allPeers) :
    (l.flatMap connList).Nodup := by
  rw [List.nodup_flatMap]
  constructor
  · intro pi hpi
    exact h.conns _ _ (h.mem_allPeers.mp (hsub pi hpi))
  · refine hl.imp_of_mem ?_
    intro a b ha hb hne c hca hcb
    exact hne (h.unique (hsub a ha) (hsub b hb) hca hcb)

theorem WellFormed.mem_unprotected :
    pi ∈ cm.unprotected ↔ pi ∈ cm.allPeers ∧ cm.protects pi.id = false := by
  rw [h.unprotected_eq, mem_filter, Bool.not_eq_true']

theorem WellFormed.nodup_unprotected : cm.unprotected.Nodup := by
  rw [h.unprotected_eq]
  exact h.nodup_allPeers.filter _

theorem WellFormed.openUnprotected_le : cm.openUnprotected.length ≤ cm.openConns.length := by
  unfold openUnprotected openConns
  rw [h.unprotected_eq]
  exact (filter_sublist.flatMap _).length_le

/-- No connection is open at a protected and at an unprotected peer. -/
theorem WellFormed.not_protected {p : PeerID} (hmem : (p, pi) ∈ cm.peers.entries)
    (hp : cm.protects p) (hc : c ∈ pi.connList) : c ∉ cm.openUnprotected := by
  intro hopen
  obtain ⟨u, hu, hcu⟩ := mem_flatMap.mp hopen
  obtain ⟨hall, hfree⟩ := h.mem_unprotected.mp hu
  have hid := h.id p pi hmem
  have hpi : pi ∈ cm.allPeers := mem_map.mpr ⟨_, hmem, rfl⟩
  rw [← h.unique hpi hall hc hcu, hid, hp] at hfree
  cases hfree

end

/-! ## The ways through the function -/

variable (sorter : PeerSort stat true) {i : Nat}

/-- With enough unprotected connections the first pass meets the target. -/
theorem frees_first (h : cm.WellFormed) (hn : n ≤ cm.openUnprotected.length) :
    Frees cm n (cm.selectEmergency sorter n) := by
  obtain ⟨k, hk, hpicked, hleft⟩ := pick_spec connList n (sorter.sort cm.unprotected)
  have hlen := length_flatMap_perm (sorter.perm cm.unprotected)
  have henough : n ≤ (bundled connList (sorter.sort cm.unprotected) k).length := by
    rcases hk.enough with he | hall
    · exact he
    · rw [hall, bundled_all, hlen]
      exact hn
  have hres : cm.selectEmergency sorter n =
      bundled connList (sorter.sort cm.unprotected) k := by
    dsimp only [selectEmergency]
    rw [hpicked, if_pos]
    omega
  have hsub : ∀ c ∈ bundled connList (sorter.sort cm.unprotected) k,
      c ∈ cm.openUnprotected := by
    intro c hc
    obtain ⟨pi, hpi, hcpi⟩ := mem_flatMap.mp hc
    exact mem_flatMap.mpr
      ⟨pi, (sorter.perm _).mem_iff.mp (mem_of_mem_take hpi), hcpi⟩
  rw [hres]
  refine ⟨?_, ?_, ?_⟩
  · refine h.nodup_flatMap ?_ ?_
    · exact ((sorter.perm _).nodup_iff.mpr h.nodup_unprotected).sublist (take_sublist _ _)
    · intro pi hpi
      have hpi := (sorter.perm _).mem_iff.mp (mem_of_mem_take hpi)
      exact (h.mem_unprotected.mp hpi).1
  · exact (min_le_left _ _).trans henough
  · rintro ⟨p, pi, c, hmem, hp, hcpi, hc⟩
    exact absurd (hsub c hc) (h.not_protected hmem hp hcpi)

/-- With too few of them the first pass takes all unprotected connections. -/
theorem pick_unprotected (hn : cm.openUnprotected.length < n) :
    (pick connList n (sorter.sort cm.unprotected)).1 =
        (sorter.sort cm.unprotected).flatMap connList ∧
      (pick connList n (sorter.sort cm.unprotected)).2 = n - cm.openUnprotected.length := by
  obtain ⟨k, hk, hpicked, hleft⟩ := pick_spec connList n (sorter.sort cm.unprotected)
  have hlen := length_flatMap_perm (sorter.perm cm.unprotected)
  have hall : k = (sorter.sort cm.unprotected).length := by
    rcases hk.enough with he | hall
    · have hle : (bundled connList (sorter.sort cm.unprotected) k).length ≤
          ((sorter.sort cm.unprotected).flatMap connList).length :=
        ((take_sublist _ _).flatMap _).length_le
      unfold openUnprotected at hn
      omega
    · exact hall
  rw [hall, bundled_all] at hpicked hleft
  rw [hlen] at hleft
  exact ⟨hpicked, hleft⟩

theorem perm_openUnprotected :
    ((sorter.sort cm.unprotected).flatMap connList).Perm cm.openUnprotected :=
  (sorter.perm cm.unprotected).flatMap_right _

theorem WellFormed.nodup_openUnprotected (h : cm.WellFormed) : cm.openUnprotected.Nodup :=
  h.nodup_flatMap h.nodup_unprotected fun _ hpi => (h.mem_unprotected.mp hpi).1

/-- When they are at least half of the target, they are all that is returned. -/
theorem frees_all_iff (h : cm.WellFormed) (hn : cm.openUnprotected.length < n)
    (hhalf : n ≤ 2 * cm.openUnprotected.length) :
    Frees cm n (cm.selectEmergency sorter n) ↔
      cm.openUnprotected.length = cm.openConns.length := by
  obtain ⟨hpicked, hleft⟩ := pick_unprotected sorter hn
  have hperm : ((sorter.sort cm.unprotected).flatMap connList).Perm cm.openUnprotected :=
    perm_openUnprotected sorter
  have hle := h.openUnprotected_le
  have hres : cm.selectEmergency sorter n =
      (sorter.sort cm.unprotected).flatMap connList := by
    dsimp only [selectEmergency]
    rw [hpicked, if_pos]
    rw [hperm.length_eq]
    omega
  rw [hres]
  constructor
  · intro hfrees
    have henough := hfrees.enough
    rw [hperm.length_eq] at henough
    rcases min_le_iff.mp henough with hmin | hmin <;> omega
  · intro hall
    refine ⟨hperm.nodup_iff.mpr h.nodup_openUnprotected, ?_, ?_⟩
    · rw [hperm.length_eq, hall]
      exact min_le_right _ _
    · intro _ c hc
      exact hperm.mem_iff.mpr hc

/-- What the second pass adds. -/
def secondPass (cm : BasicConnMgr) (sorter : PeerSort stat true) (n : Int) : List Conn :=
  (pick PeerInfo.connList (n - cm.openUnprotected.length) (sorter.sort cm.allPeers)).1

/-- When they are less than half of the target, it matters that the second pass does not
come to an unprotected peer again. -/
theorem frees_second_iff (h : cm.WellFormed) (hhalf : 2 * cm.openUnprotected.length < n) :
    Frees cm n (cm.selectEmergency sorter n) ↔
      ∀ c ∈ cm.secondPass sorter n, c ∉ cm.openUnprotected := by
  have hn : (cm.openUnprotected.length : Int) < n := by omega
  obtain ⟨hpicked, hleft⟩ := pick_unprotected sorter hn
  have hperm : ((sorter.sort cm.unprotected).flatMap connList).Perm cm.openUnprotected :=
    perm_openUnprotected sorter
  have hres : cm.selectEmergency sorter n =
      (sorter.sort cm.unprotected).flatMap connList ++ cm.secondPass sorter n := by
    dsimp only [selectEmergency]
    rw [hpicked, hleft, if_neg]
    · rfl
    · rw [hperm.length_eq]
      omega
  rw [hres]
  constructor
  · intro hfrees c hc hopen
    exact (nodup_append'.mp hfrees.distinct).2.2 (hperm.mem_iff.mpr hopen) hc
  · intro hnew
    obtain ⟨k, hk, hsecond, _⟩ := pick_spec connList (n - cm.openUnprotected.length)
      (sorter.sort cm.allPeers)
    have hall := length_flatMap_perm (sorter.perm cm.allPeers)
    refine ⟨?_, ?_, ?_⟩
    · rw [nodup_append']
      refine ⟨hperm.nodup_iff.mpr h.nodup_openUnprotected, ?_, ?_⟩
      · rw [secondPass, hsecond]
        refine h.nodup_flatMap ?_ ?_
        · exact ((sorter.perm _).nodup_iff.mpr h.nodup_allPeers).sublist (take_sublist _ _)
        · intro pi hpi
          exact (sorter.perm _).mem_iff.mp (mem_of_mem_take hpi)
      · intro c hc hc'
        exact hnew c hc' (hperm.mem_iff.mp hc)
    · rw [length_append, hperm.length_eq, secondPass, hsecond]
      rcases hk.enough with he | hlen
      · rw [min_le_iff]
        left
        omega
      · rw [hlen, bundled_all, min_le_iff]
        right
        unfold openConns
        omega
    · intro _ c hc
      exact mem_append_left _ (hperm.mem_iff.mpr hc)

/-! ## The second pass -/

theorem sortsAhead_iff {q : PeerInfo} : cm.sortsAhead stat q ↔
    ∀ u ∈ cm.unprotected, u.connList ≠ [] → rank stat true q < rank stat true u := by
  unfold sortsAhead
  rw [all_eq_true]
  simp [less_iff_rank, or_iff_not_imp_left]

/-- All peers that sort ahead stand before an unprotected peer with connections. -/
theorem ahead_before (hi : i < l.length)
    (hl : l.Pairwise fun a b => rank stat true a ≤ rank stat true b) (hu : l[i] ∈ cm.unprotected)
    (hc : l[i].connList ≠ []) :
    ((l.filter (cm.sortsAhead stat)).flatMap connList).length ≤
      (bundled connList l i).length := by
  have hrest : (l.drop i).filter (cm.sortsAhead stat) = [] := by
    rw [filter_eq_nil_iff]
    intro x hx hahead
    have hlt := sortsAhead_iff.mp hahead _ hu hc
    have hdrop := hl.sublist (drop_sublist i l)
    rw [drop_eq_getElem_cons hi] at hx hdrop
    rcases mem_cons.mp hx with rfl | hx
    · exact lt_irrefl _ hlt
    · exact absurd hlt (not_lt.mpr ((pairwise_cons.mp hdrop).1 x hx))
  have hsplit : l.filter (cm.sortsAhead stat) = (l.take i).filter (cm.sortsAhead stat) := by
    calc l.filter (cm.sortsAhead stat)
        = (l.take i ++ l.drop i).filter (cm.sortsAhead stat) := by rw [take_append_drop]
      _ = (l.take i).filter (cm.sortsAhead stat) := by
        rw [filter_append, hrest, append_nil]
  rw [hsplit]
  exact (filter_sublist.flatMap _).length_le

theorem length_openAhead :
    (cm.openAhead stat).length =
      (((sorter.sort cm.allPeers).filter (cm.sortsAhead stat)).flatMap connList).length :=
  (length_flatMap_perm ((sorter.perm cm.allPeers).filter _)).symm

theorem secondPass_new (h : cm.WellFormed)
    (hahead : n - cm.openUnprotected.length ≤ (cm.openAhead stat).length) :
    ∀ c ∈ cm.secondPass sorter n, c ∉ cm.openUnprotected := by
  intro c hc hopen
  obtain ⟨k, hk, hsecond, _⟩ := pick_spec connList (n - cm.openUnprotected.length)
    (sorter.sort cm.allPeers)
  rw [secondPass, hsecond] at hc
  obtain ⟨x, hx, hcx⟩ := mem_flatMap.mp hc
  obtain ⟨u, hu, hcu⟩ := mem_flatMap.mp hopen
  have hall := (h.mem_unprotected.mp hu).1
  have hxu : x = u := h.unique ((sorter.perm _).mem_iff.mp (mem_of_mem_take hx)) hall hcx hcu
  obtain ⟨i, hi, hget⟩ := mem_take_iff_getElem.mp hx
  have hlen : i < (sorter.sort cm.allPeers).length := lt_of_lt_of_le hi (min_le_right _ _)
  have hlt := hk.least i (lt_of_lt_of_le hi (min_le_left _ _))
  have hmem : (sorter.sort cm.allPeers)[i] ∈ cm.unprotected := by rw [hget, hxu]; exact hu
  have hbefore := ahead_before hlen (sorter.ranked _) hmem
    (by rw [hget]; exact ne_nil_of_mem hcx)
  rw [← length_openAhead] at hbefore
  omega

/-! ## An order that comes to an unprotected peer -/

/-- The order by rank, with unprotected peers first among those of equal rank. -/
def firstKey (cm : BasicConnMgr) (stat : Conn → ConnStats) (pi : PeerInfo) :
    (Bool ×ₗ Int ×ₗ Bool ×ₗ Bool ×ₗ Int) ×ₗ Bool :=
  toLex (rank stat true pi, cm.protects pi.id)

theorem rank_le_of_firstKey_le {a b : PeerInfo} (h : cm.firstKey stat a ≤ cm.firstKey stat b) :
    rank stat true a ≤ rank stat true b := by
  rcases Prod.Lex.toLex_le_toLex.mp h with hlt | ⟨heq, _⟩
  · exact le_of_lt hlt
  · exact le_of_eq heq

theorem pairwise_insertionSort_firstKey (cm : BasicConnMgr) (stat : Conn → ConnStats)
    (l : List PeerInfo) :
    (l.insertionSort fun a b => cm.firstKey stat a ≤ cm.firstKey stat b).Pairwise fun a b =>
      cm.firstKey stat a ≤ cm.firstKey stat b := by
  exact pairwise_insertionSort _ l

def unprotectedFirst (cm : BasicConnMgr) (stat : Conn → ConnStats) : PeerSort stat true where
  sort l := l.insertionSort fun a b => cm.firstKey stat a ≤ cm.firstKey stat b
  perm l := perm_insertionSort _ l
  sorted l := (pairwise_insertionSort_firstKey cm stat l).imp fun h =>
    (not_less_iff_rank _ _).mpr (rank_le_of_firstKey_le h)

theorem flatMap_filter_of_nil {p : PeerInfo → Bool} (h : ∀ x ∈ l, x.connList ≠ [] → p x) :
    (l.filter p).flatMap connList = l.flatMap connList := by
  induction l with
  | nil => rfl
  | cons x l ih =>
    have hrest := ih fun y hy => h y (mem_cons_of_mem _ hy)
    rw [filter_cons, flatMap_cons, ← hrest]
    split
    · rw [flatMap_cons]
    · rename_i hp
      have hnil : x.connList = [] := by
        by_contra hne
        exact hp (h x mem_cons_self hne)
      rw [hnil, nil_append]

/-- In that order, who stands before the first unprotected peer with connections and has
connections itself sorts ahead. -/
theorem before_ahead (h : cm.WellFormed) (hall : l.Perm cm.allPeers)
    (hl : l.Pairwise fun a b => cm.firstKey stat a ≤ cm.firstKey stat b)
    (hi : i < l.length) (hu : l[i] ∈ cm.unprotected)
    (hfirst : ∀ j (hj : j < l.length), j < i → l[j] ∈ cm.unprotected → l[j].connList = []) :
    (bundled connList l i).length ≤
      ((l.filter (cm.sortsAhead stat)).flatMap connList).length := by
  have hle := pairwise_iff_getElem.mp hl
  have hahead : ∀ x ∈ l.take i, x.connList ≠ [] → cm.sortsAhead stat x := by
    intro x hx hne
    obtain ⟨j, hj, rfl⟩ := mem_take_iff_getElem.mp hx
    have hji : j < i := lt_of_lt_of_le hj (min_le_left _ _)
    have hjl : j < l.length := hji.trans hi
    have hprot : cm.protects (l[j]).id = true := by
      by_contra hfree
      have hmem : l[j] ∈ cm.unprotected :=
        h.mem_unprotected.mpr ⟨hall.mem_iff.mp (getElem_mem _), Bool.eq_false_iff.mpr hfree⟩
      exact hne (hfirst j hjl hji hmem)
    -- a protected peer before an unprotected one has a smaller rank
    have hlt : rank stat true l[j] < rank stat true l[i] := by
      rcases Prod.Lex.toLex_le_toLex.mp (hle j i hjl hi hji) with hlt | ⟨_, hbool⟩
      · exact hlt
      · rw [hprot, (h.mem_unprotected.mp hu).2] at hbool
        change true ≤ false at hbool
        exact absurd hbool (by decide)
    rw [sortsAhead_iff]
    intro u humem hune
    obtain ⟨m, hm, rfl⟩ := getElem_of_mem (hall.mem_iff.mpr (h.mem_unprotected.mp humem).1)
    rcases lt_trichotomy m i with hmi | hmi | hmi
    · exact absurd (hfirst m hm hmi humem) hune
    · subst hmi
      exact hlt
    · exact hlt.trans_le (rank_le_of_firstKey_le (hle i m hi hm hmi))
  calc (bundled connList l i).length
      = (((l.take i).filter (cm.sortsAhead stat)).flatMap connList).length := by
        rw [flatMap_filter_of_nil hahead, bundled]
    _ ≤ ((l.filter (cm.sortsAhead stat)).flatMap connList).length :=
        (((take_sublist i l).filter _).flatMap _).length_le

theorem secondPass_repeats (h : cm.WellFormed) (hopen : cm.openUnprotected ≠ [])
    (hahead : (cm.openAhead stat).length < n - cm.openUnprotected.length) :
    ∃ c ∈ cm.secondPass (cm.unprotectedFirst stat) n, c ∈ cm.openUnprotected := by
  classical
  have hperm := (cm.unprotectedFirst stat).perm cm.allPeers
  have hlen : (cm.openAhead stat).length = ((((cm.unprotectedFirst stat).sort cm.allPeers).filter
      (cm.sortsAhead stat)).flatMap connList).length :=
    length_openAhead (cm.unprotectedFirst stat)
  obtain ⟨k, hk, hsecond, _⟩ := pick_spec connList (n - cm.openUnprotected.length)
    ((cm.unprotectedFirst stat).sort cm.allPeers)
  have hsorted : ((cm.unprotectedFirst stat).sort cm.allPeers).Pairwise fun a b =>
      cm.firstKey stat a ≤ cm.firstKey stat b := pairwise_insertionSort_firstKey cm stat _
  generalize hl : (cm.unprotectedFirst stat).sort cm.allPeers = l at *
  obtain ⟨c, hc⟩ := exists_mem_of_ne_nil _ hopen
  obtain ⟨u, hu, hcu⟩ := mem_flatMap.mp hc
  -- the first unprotected peer with connections
  let found : PeerInfo → Bool := fun x => decide (x ∈ cm.unprotected ∧ x.connList ≠ [])
  have hex : ∃ x ∈ l, found x := ⟨u, hperm.mem_iff.mpr (h.mem_unprotected.mp hu).1,
    decide_eq_true ⟨hu, ne_nil_of_mem hcu⟩⟩
  have hi : l.findIdx found < l.length := findIdx_lt_length_of_exists hex
  have hfound := of_decide_eq_true (findIdx_getElem (w := hi))
  have hfirst : ∀ j (hj : j < l.length), j < l.findIdx found → l[j] ∈ cm.unprotected →
      l[j].connList = [] := by
    intro j hj hlt hmem
    by_contra hne
    have hnot : found l[j] = false := not_of_lt_findIdx hlt
    exact of_decide_eq_false hnot ⟨hmem, hne⟩
  have hbefore := before_ahead h hperm hsorted hi hfound.1 hfirst
  have hik : l.findIdx found < k := by
    by_contra hle
    rcases hk.enough with henough | hkall
    · have hmono : (bundled connList l k).length ≤
          (bundled connList l (l.findIdx found)).length :=
        ((take_sublist_take_left (not_lt.mp hle)).flatMap _).length_le
      omega
    · omega
  obtain ⟨c, hc⟩ := exists_mem_of_ne_nil _ hfound.2
  refine ⟨c, ?_, mem_flatMap.mpr ⟨_, hfound.1, hc⟩⟩
  rw [secondPass, hl, hsecond]
  exact mem_flatMap.mpr ⟨_, mem_take_iff_getElem.mpr ⟨_, lt_min hik hi, rfl⟩, hc⟩

/-- The two passes select what they are to select, whatever the order of peers of equal
rank, exactly when `EmergencyOk` holds. -/
theorem frees_iff (h : cm.WellFormed) :
    (∀ sorter : PeerSort stat true, Frees cm n (cm.selectEmergency sorter n)) ↔
      EmergencyOk cm stat n := by
  by_cases hfirst : n ≤ cm.openUnprotected.length
  · exact ⟨fun _ => .inl hfirst, fun _ sorter => frees_first sorter h hfirst⟩
  · by_cases hhalf : n ≤ 2 * cm.openUnprotected.length
    · have hn : (cm.openUnprotected.length : Int) < n := not_le.mp hfirst
      constructor
      · intro hfrees
        exact .inr (.inr (.inl ⟨hhalf, (frees_all_iff _ h hn hhalf).mp (hfrees (.stable stat true))⟩))
      · rintro (hle | hnil | ⟨_, hall⟩ | ⟨hlt, _⟩) sorter
        · exact absurd hle hfirst
        · rw [hnil] at hn hhalf
          simp only [length_nil] at hn hhalf
          omega
        · exact (frees_all_iff sorter h hn hhalf).mpr hall
        · exact absurd hlt (not_lt.mpr hhalf)
    · have hhalf := not_le.mp hhalf
      constructor
      · intro hfrees
        by_cases hnil : cm.openUnprotected = []
        · exact .inr (.inl hnil)
        · refine .inr (.inr (.inr ⟨hhalf, ?_⟩))
          by_contra hahead
          obtain ⟨c, hc, hopen⟩ := secondPass_repeats h hnil (not_le.mp hahead)
          exact (frees_second_iff _ h hhalf).mp (hfrees (cm.unprotectedFirst stat)) c hc hopen
      · rintro (hle | hnil | ⟨hle, _⟩ | ⟨_, hahead⟩) sorter
        · exact absurd hle hfirst
        · rw [frees_second_iff sorter h hhalf, hnil]
          exact fun _ _ => not_mem_nil
        · exact absurd hle (not_le.mpr hhalf)
        · exact (frees_second_iff sorter h hhalf).mpr (secondPass_new sorter h hahead)

/-- What is asked of the result is asked of the two passes, and that `make` does not panic. -/
theorem returns_iff {maxCap : Nat} {P : List Conn → Prop} :
    (∀ sorter : PeerSort stat true, ∃ selected,
      cm.getConnsToCloseEmergency maxCap sorter n = some selected ∧ P selected) ↔
      (-10 ≤ n ∧ n + 10 ≤ maxCap) ∧
        ∀ sorter : PeerSort stat true, P (cm.selectEmergency sorter n) := by
  unfold getConnsToCloseEmergency
  by_cases hcap : n + 10 < 0 ∨ maxCap < n + 10
  · simp only [if_pos hcap]
    refine ⟨fun h => ?_, fun h => by omega⟩
    obtain ⟨_, hnone, _⟩ := h (.stable stat true)
    cases hnone
  · have hrange : -10 ≤ n ∧ n + 10 ≤ maxCap := by omega
    simp [if_neg hcap, hrange]

/-- The emergency trim returns what it is to select, whatever the order of peers of equal
rank, exactly when the target is in the range of `make` and `EmergencyOk` holds. -/
theorem emergency_frees_enough_iff (cm : BasicConnMgr) (h : cm.WellFormed) (maxCap : Nat)
    (stat : Conn → ConnStats) (n : Int) :
    (∀ sorter : PeerSort stat true, ∃ selected,
      cm.getConnsToCloseEmergency maxCap sorter n = some selected ∧ Frees cm n selected) ↔
      (-10 ≤ n ∧ n + 10 ≤ maxCap) ∧ EmergencyOk cm stat n := by
  rw [returns_iff, frees_iff h]

theorem wellFormed_of_entries (hkeyed : cm.peers.Keyed)
    (h : ∀ e ∈ cm.peers.entries, e.2.id = e.1 ∧ e.2.conns.Keyed ∧
      ∀ c ∈ e.2.connList, c.remotePeer = e.1) : cm.WellFormed where
  keyed := hkeyed
  id p pi hmem := (h (p, pi) hmem).1
  conns p pi hmem := (h (p, pi) hmem).2.1
  remotePeer p pi hmem := (h (p, pi) hmem).2.2

/-- One connection of the peer 1, and three of 2, which is protected and has the higher
value. -/
def pressed : BasicConnMgr :=
  (((((({ cfg := ⟨5, 1, 10⟩ } : BasicConnMgr).connected ⟨0, .single 1⟩ 0).connected
    ⟨1, .single 2⟩ 1).connected ⟨2, .single 2⟩ 2).connected ⟨3, .single 2⟩ 3).tagPeer
    (.single 2) "t" 5 4).protect (.single 2) "keep"

theorem pressed_wellFormed : pressed.WellFormed :=
  wellFormed_of_entries (by decide +kernel) (by decide +kernel)

theorem emergency_frees_enough_pressed :
    ∃ selected, pressed.getConnsToCloseEmergency 1000 (.stable idleStats true) 1 = some selected ∧
      Frees pressed 1 selected :=
  (emergency_frees_enough_iff pressed pressed_wellFormed 1000 idleStats 1).mpr
    ⟨by decide, .inl (by decide +kernel)⟩ (.stable idleStats true)

/-- Of four open connections one is returned where two are asked for; where four are
asked for, one of them is returned twice; a target below -10 panics. -/
theorem emergency_short_and_repeated :
    pressed.WellFormed ∧ pressed.openConns.length = 4 ∧
      pressed.getConnsToCloseEmergency 1000 (.stable idleStats true) 2 = some [⟨0, .single 1⟩] ∧
      ¬ Frees pressed 2 [⟨0, .single 1⟩] ∧
      pressed.getConnsToCloseEmergency 1000 (.stable idleStats true) 4 =
        some [⟨0, .single 1⟩, ⟨0, .single 1⟩, ⟨3, .single 2⟩, ⟨2, .single 2⟩, ⟨1, .single 2⟩] ∧
      ¬ Frees pressed 4
        [⟨0, .single 1⟩, ⟨0, .single 1⟩, ⟨3, .single 2⟩, ⟨2, .single 2⟩, ⟨1, .single 2⟩] ∧
      pressed.getConnsToCloseEmergency 1000 (.stable idleStats true) (-11) = none := by
  refine ⟨pressed_wellFormed, by decide +kernel, by decide +kernel, ?_, by decide +kernel, ?_, ?_⟩
  · intro hfrees
    exact absurd hfrees.enough (by decide +kernel)
  · intro hfrees
    exact absurd hfrees.distinct (by decide +kernel)
  · decide +kernel

end BasicConnMgr

end Dep2p.ConnMgr
