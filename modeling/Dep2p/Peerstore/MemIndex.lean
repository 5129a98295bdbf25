import Dep2p.Peerstore.MemBook

/- The map and the expiry heap of the address book in memory.

   An entry of the map should be in the heap exactly where its TTL is below that of a
   connected peer. `Insert` and `Delete` see to that, and so does `Update` for an
   entry in the heap. But `Update` returns at once for an entry outside the heap, so an
   entry whose TTL falls below the connected one stays outside, and `gc` never finds it.

   What is proved:
     1. `Indexed` — the invariant of map and heap, one lemma for each of `insert`,
        `delete`, `update` and `popIfExpired`.
     2. `view_gc` — what `gc` leaves: the entries that are connected or not expired.
     3. `addr_index_coherent` — in every run without a demotion past the heap
        (`KeepsQueue`), map and heap agree and `gc` leaves nothing expired.
     4. `demoted_entry_leaks` — an expired entry that `gc` leaves in the map. -/
namespace Dep2p.Peerstore

open Lib Function List IndexedHeap PeerAddrs ExpiringAddr Option Table

variable {b : Nat}

namespace PeerAddrs

/-- The entry stored for a peer and an address. -/
def view (pa : PeerAddrs) (k : PeerID × Multiaddr) : Option ExpiringAddr :=
  (pa.addrs.get k).map pa.entry

/-- Map and heap agree. -/
structure Indexed (pa : PeerAddrs) : Prop where
  keyed : pa.addrs.Keyed
  home : ∀ k a, pa.addrs.get k = some a → (pa.entry a).key = k ∧ a < pa.allocated
  tracks : pa.expiringHeap.Tracks
  stored : ∀ a, pa.expiringHeap.Mem a → pa.addrs.get (pa.entry a).key = some a
  queued : ∀ k a, pa.addrs.get k = some a →
    (pa.expiringHeap.Mem a ↔ ¬ (pa.entry a).isConnected)
  ordered : IndexedHeap.Ordered pa.expiryOf pa.expiringHeap pa.expiringHeap.len

variable {pa pa' : PeerAddrs} {k : PeerID × Multiaddr} {a : Nat} {e : ExpiringAddr} {now : Int}

theorem indexed_empty : Indexed {} where
  keyed := keyed_empty
  home _ _ h := by cases h
  tracks := tracks_empty
  stored a h := by
    obtain ⟨i, hi, _⟩ := h
    exact absurd hi (i.not_lt_zero)
  queued _ _ h := by cases h
  ordered c _ hc := absurd hc (c.not_lt_zero)

variable {heap : IndexedHeap Nat} {k' : PeerID × Multiaddr} {p : PeerID}

section

variable (hi : pa.Indexed)
include hi

theorem Indexed.mem_lt (hm : pa.expiringHeap.Mem a) : a < pa.allocated :=
  (hi.home _ a (hi.stored a hm)).2

section

variable (hk : pa.addrs.get k = some a)
include hk

/-- One pointer is stored under one key. -/
theorem Indexed.key_unique (hk' : pa.addrs.get k' = some a) : k' = k :=
  (hi.home k' a hk').1.symm.trans (hi.home k a hk).1

/-! ## Taking an entry out -/

/-- An entry leaves the map, and the heap where it is in it. -/
theorem Indexed.drop (hmem : ∀ b, heap.Mem b ↔ b ≠ a ∧ pa.expiringHeap.Mem b)
    (htracks : heap.Tracks) (hordered : IndexedHeap.Ordered pa.expiryOf heap heap.len) :
    Indexed { pa with expiringHeap := heap, addrs := pa.addrs.erase k } where
  keyed := hi.keyed.erase k
  home k' b hb := by
    rw [get_erase] at hb
    split at hb
    · cases hb
    · exact hi.home k' b hb
  tracks := htracks
  stored b hb := by
    obtain ⟨hne, hold⟩ := (hmem b).mp hb
    have hget := hi.stored b hold
    rw [get_erase_ne]
    · exact hget
    · intro hkey
      rw [hkey, hk] at hget
      exact hne (some.inj hget).symm
  queued k' b hb := by
    rw [get_erase] at hb
    split at hb
    · cases hb
    rename_i hkk
    have hne : b ≠ a := by
      intro hba
      rw [hba] at hb
      exact hkk (hi.key_unique hk hb)
    rw [hmem b, ← hi.queued k' b hb]
    exact and_iff_right hne
  ordered := hordered

theorem Indexed.delete_eq :
    pa.delete a =
      { pa with
        expiringHeap := if pa.expiringHeap.index a ≠ -1
          then pa.expiringHeap.remove pa.expiryOf (pa.expiringHeap.index a).toNat
          else pa.expiringHeap
        addrs := pa.addrs.erase k } := by
  unfold delete
  rw [(hi.home k a hk).1, hk]

theorem Indexed.delete : (pa.delete a).Indexed := by
  rw [hi.delete_eq hk]
  split
  · rename_i hin
    obtain ⟨hlt, hat⟩ := hi.tracks.at_index hin
    have ht := takes_remove pa.expiryOf hi.tracks hlt
    rw [hat] at ht
    apply hi.drop hk ht.mem ht.tracks
    rw [ht.len]
    exact (hi.ordered.loose hlt fun _ _ _ => rfl).remove hlt
  · rename_i hout
    have hnot : ¬ pa.expiringHeap.Mem a := fun hm => hout (hi.tracks.mem_iff.mp hm)
    apply hi.drop hk _ hi.tracks hi.ordered
    intro b
    constructor
    · intro hb
      exact ⟨fun hba => hnot (hba ▸ hb), hb⟩
    · intro hb
      exact hb.2

end

end

theorem view_erase (k' : PeerID × Multiaddr) :
    view { pa with expiringHeap := heap, addrs := pa.addrs.erase k } k' =
      if k' = k then none else pa.view k' := by
  unfold view
  rw [get_erase]
  split <;> rfl

theorem Indexed.view_delete (hi : pa.Indexed) (hk : pa.addrs.get k = some a)
    (k' : PeerID × Multiaddr) : (pa.delete a).view k' = if k' = k then none else pa.view k' := by
  rw [hi.delete_eq hk]
  exact view_erase k'

/-- Deleting a connected entry leaves the heap alone. -/
theorem Indexed.heap_delete (hi : pa.Indexed) (hk : pa.addrs.get k = some a)
    (hc : (pa.entry a).isConnected) : (pa.delete a).expiringHeap = pa.expiringHeap := by
  have hout : pa.expiringHeap.index a = -1 := by
    by_contra hin
    exact (hi.queued k a hk).mp (hi.tracks.mem_iff.mpr hin) hc
  rw [hi.delete_eq hk]
  simp [hout]

/-! ## Changing an entry -/

@[simp] theorem expiringHeap_write : (pa.write a e).expiringHeap = pa.expiringHeap := rfl

/-- `Update` changes nothing but the heap. -/
theorem update_eq :
    ∃ heap, pa.update a = { pa with expiringHeap := heap } := by
  unfold update
  split
  · exact ⟨_, rfl⟩
  split <;> exact ⟨_, rfl⟩

/-- An entry of a book in which one was written. -/
theorem view_cases {e' : ExpiringAddr}
    (hview : ∀ k', pa'.view k' = if k' = k then some e else pa.view k')
    (h : pa'.view k' = some e') : pa.view k' = some e' ∨ e' = e := by
  rw [hview] at h
  split at h
  · exact .inr (some.inj h).symm
  · exact .inl h

section

variable (hi : pa.Indexed)
include hi

section

variable (hk : pa.addrs.get k = some a)
include hk

theorem view_write :
    view { pa.write a e with expiringHeap := heap } k' = if k' = k then some e else pa.view k' := by
  unfold view write
  dsimp only
  split
  · rename_i hkk
    rw [hkk, hk, map_some, update_self]
  · rename_i hkk
    cases hb : pa.addrs.get k' with
    | none => rfl
    | some b =>
      have hne : b ≠ a := by
        intro hba
        rw [hba] at hb
        exact hkk (hi.key_unique hk hb)
      rw [map_some, map_some, update_of_ne hne]

theorem Indexed.view_touch (k' : PeerID × Multiaddr) :
    ((pa.write a e).update a).view k' = if k' = k then some e else pa.view k' := by
  obtain ⟨heap, hheap⟩ := update_eq
  rw [hheap]
  exact view_write hi hk

/-- An entry `a` of the map gets the contents `e`, with a heap that then holds `a` where
`e` is not connected. -/
theorem Indexed.rewrite (he : e.key = (pa.entry a).key) (htracks : heap.Tracks)
    (hmem : ∀ b, b ≠ a → (heap.Mem b ↔ pa.expiringHeap.Mem b)) (ha : heap.Mem a ↔ ¬ e.isConnected)
    (hordered : IndexedHeap.Ordered (pa.write a e).expiryOf heap heap.len) :
    Indexed { pa.write a e with expiringHeap := heap } := by
  -- the keys of the entries are what they were
  have hkey : ∀ b, ((pa.write a e).entry b).key = (pa.entry b).key := by
    intro b
    unfold write
    by_cases hba : b = a
    · rw [hba]
      simpa using he
    · simp [update_of_ne hba]
  refine ⟨hi.keyed, ?_, htracks, ?_, ?_, hordered⟩
  · intro k' b hb
    obtain ⟨h₁, h₂⟩ := hi.home k' b hb
    exact ⟨(hkey b).trans h₁, h₂⟩
  · intro b hb
    show pa.addrs.get ((pa.write a e).entry b).key = some b
    rw [hkey b]
    by_cases hba : b = a
    · rw [hba, (hi.home k a hk).1, hk]
    · exact hi.stored b ((hmem b hba).mp hb)
  · intro k' b hb
    by_cases hba : b = a
    · rw [hba, ha]
      simp [write]
    · rw [hmem b hba, hi.queued k' b hb]
      simp [write, update_of_ne hba]

/-- `Update` after a change of TTL and expiry, unless a connected entry is demoted. -/
theorem Indexed.touch (he : e.key = (pa.entry a).key)
    (hup : (pa.entry a).isConnected → e.isConnected) : ((pa.write a e).update a).Indexed := by
  have hentry : (pa.write a e).entry a = e := update_self ..
  unfold update
  rw [hentry, expiringHeap_write]
  split
  · -- outside the heap: connected before and after, and the order reads other entries
    rename_i hout
    have hnot : ¬ pa.expiringHeap.Mem a := fun hm => hi.tracks.mem_iff.mp hm hout
    have hconn : e.isConnected := hup (by_contra fun hc => hnot ((hi.queued k a hk).mpr hc))
    refine hi.rewrite hk he hi.tracks (fun b _ => .rfl) (by simp [hnot, hconn]) ?_
    have hsame : ∀ c, c < pa.expiringHeap.len →
        (pa.write a e).expiryOf (pa.expiringHeap.item c) = pa.expiryOf (pa.expiringHeap.item c) := by
      intro c hc
      have hne : pa.expiringHeap.item c ≠ a := fun hca => hnot ⟨c, hc, hca⟩
      simp [expiryOf, write, update_of_ne hne]
    intro c hc hcn
    have hp := parent_lt hc
    unfold IndexedHeap.Below
    rw [hsame c hcn, hsame _ (by omega)]
    exact hi.ordered c hc hcn
  · rename_i hin
    obtain ⟨hlt, hat⟩ := hi.tracks.at_index hin
    have hloose : IndexedHeap.Loose (pa.write a e).expiryOf pa.expiringHeap pa.expiringHeap.len
        (pa.expiringHeap.index a).toNat := by
      apply hi.ordered.loose hlt
      intro c hc hci
      have hne : pa.expiringHeap.item c ≠ a := by
        intro hca
        exact hci (hi.tracks.inj hc hlt (hca.trans hat.symm))
      simp [expiryOf, write, update_of_ne hne]
    split
    · rename_i hconn
      have ht := takes_remove (pa.write a e).expiryOf hi.tracks hlt
      rw [hat] at ht
      refine hi.rewrite hk he ht.tracks ?_ ?_ ?_
      · intro b hb
        rw [ht.mem b]
        exact and_iff_right hb
      · rw [ht.mem a]
        simp [hconn]
      · rw [ht.len]
        exact hloose.remove hlt
    · rename_i hconn
      have hr := rearranges_fix (pa.write a e).expiryOf hlt
      refine hi.rewrite hk he (hr.tracks hi.tracks) (fun b _ => hr.mem b) ?_ ?_
      · rw [hr.mem a]
        exact iff_of_true (hi.tracks.mem_iff.mpr hin) hconn
      · exact ordered_fix hlt hloose

/-- `Update` of an entry that stays in the heap keeps the number of entries there. -/
theorem Indexed.num_touch (hold : ¬ (pa.entry a).isConnected) (hnew : ¬ e.isConnected) :
    ((pa.write a e).update a).numUnconnectedAddrs = pa.numUnconnectedAddrs := by
  have hin : pa.expiringHeap.index a ≠ -1 := hi.tracks.mem_iff.mp ((hi.queued k a hk).mpr hold)
  have hentry : (pa.write a e).entry a = e := update_self ..
  unfold update
  rw [expiringHeap_write, if_neg hin, hentry, if_neg hnew]
  exact (rearranges_fix (pa.write a e).expiryOf (hi.tracks.at_index hin).1).len

end

/-! ## A new entry -/

theorem view_alloc :
    view { pa.alloc e with expiringHeap := heap } k' =
      if k' = e.key then some e else pa.view k' := by
  unfold view alloc
  dsimp only
  rw [get_set]
  split
  · rw [map_some, update_self]
  · cases hb : pa.addrs.get k' with
    | none => rfl
    | some b =>
      have hne : b ≠ pa.allocated := Nat.ne_of_lt (hi.home k' b hb).2
      rw [map_some, map_some, update_of_ne hne]

theorem Indexed.view_insert (k' : PeerID × Multiaddr) :
    (pa.insert e).view k' = if k' = e.key then some e else pa.view k' := by
  simp only [insert]
  split <;> exact view_alloc hi

theorem Indexed.index_allocated : pa.expiringHeap.index pa.allocated = -1 := by
  by_contra hin
  exact Nat.lt_irrefl _ (hi.mem_lt (hi.tracks.mem_iff.mpr hin))

/-- The new pointer is not in the heap, so writing `-1` there changes nothing. -/
theorem Indexed.heap_alloc : (pa.alloc e).expiringHeap = pa.expiringHeap := by
  unfold alloc
  rw [← hi.index_allocated, update_eq_self]

/-- What is in the heap keeps its contents. -/
theorem Indexed.entry_alloc (hm : pa.expiringHeap.Mem a) : (pa.alloc e).entry a = pa.entry a :=
  update_of_ne (Nat.ne_of_lt (hi.mem_lt hm)) ..

/-- A new entry in the map, with a heap that holds it where it is not connected. -/
theorem Indexed.grow (hk : pa.addrs.get e.key = none) (htracks : heap.Tracks)
    (hmem : ∀ b, heap.Mem b ↔ b = pa.allocated ∧ ¬ e.isConnected ∨ pa.expiringHeap.Mem b)
    (hordered : IndexedHeap.Ordered (pa.alloc e).expiryOf heap heap.len) :
    Indexed { pa.alloc e with expiringHeap := heap } := by
  have hnew : (pa.alloc e).entry pa.allocated = e := update_self ..
  refine ⟨hi.keyed.set _ _, ?_, htracks, ?_, ?_, hordered⟩
  · intro k' b hb
    have hb : (pa.addrs.set e.key pa.allocated).get k' = some b := hb
    rw [get_set] at hb
    split at hb
    · rename_i hkk
      rw [← some.inj hb, hkk]
      exact ⟨by rw [hnew], Nat.lt_succ_self _⟩
    · obtain ⟨h₁, h₂⟩ := hi.home k' b hb
      refine ⟨?_, Nat.lt_succ_of_lt h₂⟩
      rw [← h₁]
      exact congrArg _ (update_of_ne (Nat.ne_of_lt h₂) ..)
  · intro b hb
    show (pa.addrs.set e.key pa.allocated).get ((pa.alloc e).entry b).key = some b
    rcases (hmem b).mp hb with ⟨hba, _⟩ | hold
    · rw [hba, hnew, get_set_self]
    · have hget := hi.stored b hold
      have hne : (pa.entry b).key ≠ e.key := by
        intro hkk
        rw [hkk, hk] at hget
        cases hget
      rw [hi.entry_alloc hold, get_set_ne _ _ hne, hget]
  · intro k' b hb
    have hb : (pa.addrs.set e.key pa.allocated).get k' = some b := hb
    rw [get_set] at hb
    split at hb
    · have hout : ¬ pa.expiringHeap.Mem pa.allocated := fun hm => Nat.lt_irrefl _ (hi.mem_lt hm)
      rw [hmem b, ← some.inj hb, hnew]
      simp [hout]
    · have hne : b ≠ pa.allocated := Nat.ne_of_lt (hi.home k' b hb).2
      have hsame : (pa.alloc e).entry b = pa.entry b := update_of_ne hne ..
      rw [hmem b, hsame, ← hi.queued k' b hb]
      simp [hne]

theorem Indexed.insert (hk : pa.addrs.get e.key = none) : (pa.insert e).Indexed := by
  have hordered : IndexedHeap.Ordered (pa.alloc e).expiryOf pa.expiringHeap pa.expiringHeap.len := by
    intro c hc hcn
    have hp := parent_lt hc
    have hold := hi.ordered c hc hcn
    unfold IndexedHeap.Below expiryOf at hold ⊢
    rw [hi.entry_alloc ⟨c, hcn, rfl⟩, hi.entry_alloc ⟨parent c, by omega, rfl⟩]
    exact hold
  simp only [PeerAddrs.insert]
  split
  · rename_i hconn
    have hg : Indexed { pa.alloc e with expiringHeap := pa.expiringHeap } :=
      hi.grow hk hi.tracks (by simp [hconn]) hordered
    rw [← hi.heap_alloc (e := e)] at hg
    exact hg
  · rename_i hconn
    rw [hi.heap_alloc]
    have ha := adds_push (pa.alloc e).expiryOf hi.tracks hi.index_allocated
    apply hi.grow hk ha.tracks
    · intro b
      rw [ha.mem b]
      simp [hconn]
    · exact hordered.push _

theorem Indexed.num_insert : pa.numUnconnectedAddrs ≤ (pa.insert e).numUnconnectedAddrs := by
  unfold numUnconnectedAddrs
  simp only [PeerAddrs.insert]
  split
  · exact Nat.le_of_eq (congrArg len hi.heap_alloc).symm
  · rw [hi.heap_alloc,
      (adds_push (pa.alloc e).expiryOf hi.tracks hi.index_allocated).len]
    exact Nat.le_succ _

end

/-! ## Pointers a loop holds -/

/-- The pointer is stored under the key of its entry. -/
def Live (pa : PeerAddrs) (a : Nat) : Prop := pa.addrs.get (pa.entry a).key = some a

theorem Indexed.live (hi : pa.Indexed) (hk : pa.addrs.get k = some a) : pa.Live a := by
  unfold Live
  rw [(hi.home k a hk).1, hk]

theorem Live.delete (hb : pa.Live b) (hi : pa.Indexed) (ha : pa.Live a) (hne : b ≠ a) :
    (pa.delete a).Live b := by
  rw [hi.delete_eq ha]
  show (pa.addrs.erase (pa.entry a).key).get (pa.entry b).key = some b
  rw [get_erase_ne]
  · exact hb
  · intro hkey
    unfold Live at hb
    rw [hkey, ha] at hb
    exact hne (some.inj hb).symm

theorem entry_touch (hne : b ≠ a) : ((pa.write a e).update a).entry b = pa.entry b := by
  obtain ⟨heap, hheap⟩ := update_eq
  rw [hheap]
  exact update_of_ne hne ..

theorem Live.touch (hb : pa.Live b) (hne : b ≠ a) :
    ((pa.write a e).update a).Live b := by
  obtain ⟨heap, hheap⟩ := update_eq
  unfold Live
  rw [entry_touch hne, hheap]
  exact hb

theorem Indexed.mem_ofPeer (hi : pa.Indexed) :
    a ∈ pa.ofPeer p ↔ ∃ addr, pa.addrs.get (p, addr) = some a := by
  unfold ofPeer
  rw [List.mem_map]
  constructor
  · intro hm
    obtain ⟨⟨⟨q, addr⟩, b⟩, hb, rfl⟩ := hm
    obtain ⟨hin, hq⟩ := mem_filter.mp hb
    have hq : q = p := of_decide_eq_true hq
    exact ⟨addr, hi.keyed.mem_iff.mp (hq ▸ hin)⟩
  · intro hm
    obtain ⟨addr, hget⟩ := hm
    exact ⟨((p, addr), a), mem_filter.mpr ⟨hi.keyed.mem_iff.mpr hget, decide_eq_true rfl⟩, rfl⟩

theorem Indexed.nodup_ofPeer (hi : pa.Indexed) : (pa.ofPeer p).Nodup := by
  apply Nodup.map_on
  · intro x hx y hy hxy
    have hgx := hi.keyed.mem_iff.mp (mem_of_mem_filter hx)
    have hgy := hi.keyed.mem_iff.mp (mem_of_mem_filter hy)
    rw [← hxy] at hgy
    exact Prod.ext (hi.key_unique hgy hgx) hxy
  · exact (Nodup.of_map _ hi.keyed).filter _

theorem Indexed.live_ofPeer (hi : pa.Indexed) (ha : a ∈ pa.ofPeer p) : pa.Live a := by
  obtain ⟨addr, hget⟩ := hi.mem_ofPeer.mp ha
  exact hi.live hget

/-! ## Expiry -/

/-- What `PopIfExpired` takes: an expired entry of the heap. -/
theorem Indexed.pop (hi : pa.Indexed) (h : pa.popIfExpired now = some (a, pa')) :
    pa'.Indexed ∧ pa.addrs.get (pa.entry a).key = some a ∧ ¬ (pa.entry a).isConnected ∧
      (pa.entry a).expiry ≤ now ∧
      ∀ k', pa'.view k' = if k' = (pa.entry a).key then none else pa.view k' := by
  unfold popIfExpired at h
  split at h
  · rename_i hpop
    obtain ⟨hlen, hexp⟩ := hpop
    obtain ⟨hitem, ht⟩ := takes_pop pa.expiryOf hi.tracks hlen
    injection h with h
    injection h with ha hpa
    have ha0 : pa.expiringHeap.item 0 = a := hitem.symm.trans ha
    have hmem : pa.expiringHeap.Mem a := ⟨0, hlen, ha0⟩
    have hget := hi.stored a hmem
    rw [ha0] at ht
    subst hpa
    rw [ha]
    refine ⟨hi.drop hget ht.mem ht.tracks ?_, hget, (hi.queued _ a hget).mp hmem, ?_, view_erase⟩
    · rw [ht.len]
      exact hi.ordered.pop hlen
    · unfold nextExpiry at hexp
      rw [ha0] at hexp
      exact hexp
  · cases h

/-- Where `PopIfExpired` finds nothing, nothing in the heap is expired. -/
theorem Indexed.pop_none (hi : pa.Indexed) (h : pa.popIfExpired now = none)
    (hk : pa.view k = some e) (hc : ¬ e.isConnected) : now < e.expiry := by
  obtain ⟨a, ha, rfl⟩ := map_eq_some_iff.mp hk
  obtain ⟨i, hlt, hat⟩ := (hi.queued k a ha).mpr hc
  unfold popIfExpired at h
  split at h
  · cases h
  rename_i hpop
  have hnext : now < pa.nextExpiry := by
    by_contra hle
    exact hpop ⟨by omega, by omega⟩
  have hroot := hi.ordered.root_le hlt
  rw [hat] at hroot
  exact lt_of_lt_of_le hnext hroot

end PeerAddrs

namespace MemoryAddrBook

variable {mab : MemoryAddrBook} {pa : PeerAddrs} {p : PeerID} {ttl exp now : Int}

theorem indexed_gc (hi : mab.addrs.Indexed) : (mab.gc now).addrs.Indexed := by
  fun_induction gc mab now with
  | case1 mab _ => exact hi
  | case2 mab ea pa' hpop ih =>
    apply ih
    rw [addrs_maybeDeleteSignedPeerRecord]
    exact (hi.pop hpop).1

/-- `gc` leaves the entries that are connected or not expired. -/
theorem view_gc (hi : mab.addrs.Indexed) (k : PeerID × Multiaddr) :
    (mab.gc now).addrs.view k =
      (mab.addrs.view k).filter fun e => e.isConnected ∨ now < e.expiry := by
  fun_induction gc mab now with
  | case1 mab hnone =>
    cases hk : mab.addrs.view k with
    | none => rfl
    | some e =>
      rw [filter_some, if_pos]
      rw [decide_eq_true_iff]
      by_cases hc : e.isConnected
      · exact .inl hc
      · exact .inr (hi.pop_none hnone hk hc)
  | case2 mab ea pa' hpop ih =>
    obtain ⟨hi', hget, hconn, hexp, hview⟩ := hi.pop hpop
    rw [ih (by rw [addrs_maybeDeleteSignedPeerRecord]; exact hi'),
      addrs_maybeDeleteSignedPeerRecord]
    rw [hview k]
    split
    · -- the entry taken is one that the filter leaves out
      rename_i hkey
      have hold : mab.addrs.view k = some (mab.addrs.entry ea) := by
        unfold view
        rw [hkey, hget]
        rfl
      rw [hold, filter_some, if_neg]
      · rfl
      · rw [decide_eq_true_iff]
        intro hor
        rcases hor with h | h
        · exact hconn h
        · omega
    · rfl

/-! ## One address of a call -/

theorem indexed_addOne (hi : pa.Indexed) (m : Option Multiaddr) :
    (addOne p ttl exp pa m).Indexed := by
  unfold addOne
  split
  · exact hi
  split
  · rename_i hfind
    exact hi.insert hfind
  · rename_i a hfind
    dsimp only
    split
    · -- the TTL only grows, so a connected entry stays connected
      refine hi.touch hfind rfl ?_
      intro hc
      unfold isConnected ttlIsConnected at hc ⊢
      dsimp only
      split
      · omega
      · exact hc
    · exact hi

/-- No address of `rest` that `SetAddrs` is about to set has a connected entry that
would be demoted past the heap. -/
def SetKeeps (cap : Int) (p : PeerID) (ttl : Int) (pa : PeerAddrs)
    (rest : List (Option Multiaddr)) : Prop :=
  ttl ≤ 0 ∨ ttlIsConnected ttl ∨ cap ≤ pa.numUnconnectedAddrs ∨
    ∀ m ∈ rest, ∀ addr, ownAddr p m = some addr →
      ∀ e, pa.view (p, addr) = some e → ¬ e.isConnected

variable {cap : Int} {m : Option Multiaddr} {rest : List (Option Multiaddr)}

/-- An entry whose address has been set to a TTL below the connected one is not a
connected entry. -/
theorem setKeeps_of_view {pa' : PeerAddrs} (httl : ¬ ttlIsConnected ttl)
    (h : ∀ m ∈ rest, ∀ addr, ownAddr p m = some addr →
      ∀ e, pa.view (p, addr) = some e → ¬ e.isConnected) {k : PeerID × Multiaddr} {e : ExpiringAddr}
    (hview : ∀ k', pa'.view k' = if k' = k then some e else pa.view k') (he : e.ttl = ttl) :
    SetKeeps cap p ttl pa' rest := by
  refine .inr (.inr (.inr ?_))
  intro m hm addr haddr e' he'
  rcases view_cases hview he' with hold | rfl
  · exact h m hm addr haddr e' hold
  · unfold isConnected
    rw [he]
    exact httl

theorem setOne_keeps (hi : pa.Indexed) (hs : SetKeeps cap p ttl pa (m :: rest)) :
    (setOne cap p ttl exp pa m).Indexed ∧ SetKeeps cap p ttl (setOne cap p ttl exp pa m) rest := by
  -- what is known of the addresses after this one
  have hrest : SetKeeps cap p ttl pa rest := by
    rcases hs with h | h | h | h
    · exact .inl h
    · exact .inr (.inl h)
    · exact .inr (.inr (.inl h))
    · exact .inr (.inr (.inr fun m' hm' => h m' (mem_cons_of_mem _ hm')))
  unfold setOne
  split
  · exact ⟨hi, hrest⟩
  rename_i addr haddr
  split
  · rename_i a hfind
    have hview : pa.view (p, addr) = some (pa.entry a) := by
      unfold view
      rw [show pa.addrs.get (p, addr) = some a from hfind]
      rfl
    have hkey : (pa.entry a).key = (p, addr) := (hi.home _ a hfind).1
    split
    · rename_i hpos
      split
      · -- the cap is reached: the demoted entry goes, and the heap stays
        rename_i hcap
        refine ⟨hi.delete hfind, .inr (.inr (.inl ?_))⟩
        unfold numUnconnectedAddrs
        rw [hi.heap_delete hfind hcap.1]
        exact hcap.2.2
      · rename_i hcap
        have hnew : ({ pa.entry a with addr, expiry := exp, ttl } : ExpiringAddr).key =
            (pa.entry a).key := by
          have hpeer : (pa.entry a).peer = p := congrArg Prod.fst hkey
          rw [hkey]
          exact Prod.ext hpeer rfl
        have hup : (pa.entry a).isConnected → ttlIsConnected ttl := by
          intro hc
          by_contra httl
          rcases hs with h | h | h | h
          · omega
          · exact httl h
          · exact hcap ⟨hc, httl, h⟩
          · exact h m mem_cons_self addr haddr _ hview hc
        refine ⟨hi.touch hfind hnew hup, ?_⟩
        rcases hrest with h | h | h | h
        · exact .inl h
        · exact .inr (.inl h)
        · by_cases httl : ttlIsConnected ttl
          · exact .inr (.inl httl)
          · refine .inr (.inr (.inl ?_))
            have hnew : ¬ isConnected { pa.entry a with addr, expiry := exp, ttl } := httl
            rw [hi.num_touch hfind (fun hc => httl (hup hc)) hnew]
            exact h
        · by_cases httl : ttlIsConnected ttl
          · exact .inr (.inl httl)
          · exact setKeeps_of_view httl h (hi.view_touch hfind) rfl
    · rename_i hpos
      exact ⟨hi.delete hfind, .inl (by omega)⟩
  · rename_i hfind
    split
    · split
      · exact ⟨hi, hrest⟩
      rename_i hcap
      refine ⟨hi.insert hfind, ?_⟩
      by_cases httl : ttlIsConnected ttl
      · exact .inr (.inl httl)
      rcases hrest with h | h | h | h
      · exact .inl h
      · exact .inr (.inl h)
      · exact absurd ⟨httl, h⟩ hcap
      · exact setKeeps_of_view httl h hi.view_insert rfl
    · exact ⟨hi, hrest⟩

/-- No entry of `rest` that `UpdateAddrs` is about to change is demoted past the heap. -/
def UpdateKeeps (cap oldTTL newTTL : Int) (pa : PeerAddrs) (rest : List Nat) : Prop :=
  ¬ ttlIsConnected oldTTL ∨ newTTL = 0 ∨ ttlIsConnected newTTL ∨ cap ≤ pa.numUnconnectedAddrs ∨
    ∀ a ∈ rest, (pa.entry a).ttl ≠ oldTTL

variable {oldTTL newTTL : Int} {a : Nat} {order : List Nat}

theorem UpdateKeeps.mono {rest : List Nat} (h : UpdateKeeps cap oldTTL newTTL pa order)
    (hsub : rest ⊆ order) : UpdateKeeps cap oldTTL newTTL pa rest := by
  rcases h with h | h | h | h | h
  · exact .inl h
  · exact .inr (.inl h)
  · exact .inr (.inr (.inl h))
  · exact .inr (.inr (.inr (.inl h)))
  · exact .inr (.inr (.inr (.inr fun a ha => h a (hsub ha))))

theorem updateOne_keeps (hi : pa.Indexed) (ha : pa.Live a)
    (hs : UpdateKeeps cap oldTTL newTTL pa (a :: order)) :
    (updateOne cap oldTTL newTTL exp pa a).Indexed ∧
      UpdateKeeps cap oldTTL newTTL (updateOne cap oldTTL newTTL exp pa a) order := by
  unfold updateOne
  split
  · rename_i hold
    split
    · rename_i hzero
      exact ⟨hi.delete ha, .inr (.inl hzero)⟩
    split
    · rename_i hcap
      have hconn : (pa.entry a).isConnected := by
        unfold isConnected
        rw [← hold]
        exact hcap.1
      refine ⟨hi.delete ha, .inr (.inr (.inr (.inl ?_)))⟩
      unfold numUnconnectedAddrs
      rw [hi.heap_delete ha hconn]
      exact hcap.2.2
    · rename_i hzero hcap
      have hup : ttlIsConnected oldTTL → ttlIsConnected newTTL := by
        intro hc
        by_contra hnew
        rcases hs with h | h | h | h | h
        · exact h hc
        · exact hzero h
        · exact hnew h
        · exact hcap ⟨hc, hnew, h⟩
        · exact h a mem_cons_self hold.symm
      refine ⟨hi.touch ha rfl ?_, ?_⟩
      · unfold isConnected
        rw [← hold]
        exact hup
      · by_cases hc : ttlIsConnected oldTTL
        · exact .inr (.inr (.inl (hup hc)))
        · exact .inl hc
  · exact ⟨hi, hs.mono (subset_cons_self a order)⟩

theorem Live.updateOne (hb : pa.Live b) (hi : pa.Indexed) (ha : pa.Live a) (hne : b ≠ a) :
    (updateOne cap oldTTL newTTL exp pa a).Live b := by
  unfold MemoryAddrBook.updateOne
  split
  · split
    · exact hb.delete hi ha hne
    split
    · exact hb.delete hi ha hne
    · exact hb.touch hne
  · exact hb

/-! ## Whole calls -/

theorem indexed_setLoop (addrs : List (Option Multiaddr)) (hi : pa.Indexed)
    (hs : SetKeeps cap p ttl pa addrs) : (addrs.foldl (setOne cap p ttl exp) pa).Indexed := by
  induction addrs generalizing pa with
  | nil => exact hi
  | cons m rest ih =>
    obtain ⟨hi', hs'⟩ := setOne_keeps hi hs
    exact ih hi' hs'

/-- A loop over the entries of a peer, whose body keeps the pointers of the others. -/
theorem indexed_peerLoop {body : PeerAddrs → Nat → PeerAddrs} {K : PeerAddrs → List Nat → Prop}
    (hbody : ∀ pa a rest, pa.Indexed → pa.Live a → K pa (a :: rest) →
      (body pa a).Indexed ∧ K (body pa a) rest ∧ ∀ b, pa.Live b → b ≠ a → (body pa a).Live b)
    (hi : pa.Indexed) (hr : order.Perm (pa.ofPeer p)) (hK : K pa order) :
    (order.foldl body pa).Indexed := by
  have hn : order.Nodup := hr.nodup_iff.mpr hi.nodup_ofPeer
  have hlive : ∀ a ∈ order, pa.Live a := fun a ha => hi.live_ofPeer (hr.mem_iff.mp ha)
  clear hr
  induction order generalizing pa with
  | nil => exact hi
  | cons a rest ih =>
    rw [nodup_cons] at hn
    obtain ⟨hi', hK', hothers⟩ := hbody pa a rest hi (hlive a mem_cons_self) hK
    refine ih hi' hK' hn.2 ?_
    intro b hb
    exact hothers b (hlive b (mem_cons_of_mem _ hb)) fun hba => hn.1 (hba ▸ hb)

theorem indexed_addAddrs (hi : mab.addrs.Indexed) (addrs : List (Option Multiaddr)) :
    (mab.addAddrs now p addrs ttl).addrs.Indexed := by
  simp only [addAddrs, addrs_maybeDeleteSignedPeerRecord]
  split
  · exact hi
  split
  · exact hi
  · exact foldlRecOn addrs _ hi fun _ hi m _ => indexed_addOne hi m

theorem indexed_storeRecord (hi : mab.addrs.Indexed) (env : Envelope) (rec : PeerRecord) :
    (mab.storeRecord now env rec ttl).addrs.Indexed := by
  apply indexed_addAddrs
  exact hi

/-- The calls that demote no connected entry past the heap. -/
def Call.KeepsQueue (mab : MemoryAddrBook) : Call → Prop
  | .setAddrs _ p addrs ttl => SetKeeps mab.maxUnconnectedAddrs p ttl mab.addrs addrs
  | .updateAddrs _ p oldTTL newTTL _ =>
    UpdateKeeps mab.maxUnconnectedAddrs oldTTL newTTL mab.addrs (mab.addrs.ofPeer p)
  | _ => True

theorem indexed_step (hi : mab.addrs.Indexed) {c : Call} (hr : c.Ranges mab)
    (hc : c.KeepsQueue mab) : (mab.step c).addrs.Indexed := by
  cases c with
  | addAddrs now p addrs ttl => exact indexed_addAddrs hi addrs
  | setAddrs now p addrs ttl =>
    simp only [step, setAddrs, addrs_maybeDeleteSignedPeerRecord]
    exact indexed_setLoop addrs hi hc
  | updateAddrs now p oldTTL newTTL order =>
    simp only [step, updateAddrs, addrs_maybeDeleteSignedPeerRecord]
    refine indexed_peerLoop ?_ hi hr (hc.mono hr.subset)
    intro pa a rest hi ha hs
    obtain ⟨hi', hs'⟩ := updateOne_keeps hi ha hs
    exact ⟨hi', hs', fun b hb hne => Live.updateOne hb hi ha hne⟩
  | consumePeerRecord now env ttl =>
    simp only [step, consumePeerRecord]
    split
    · exact hi
    split
    all_goals
      split
      · exact hi
      · exact indexed_storeRecord hi env _
  | clearAddrs p order =>
    refine indexed_peerLoop (K := fun _ _ => True) ?_ hi hr trivial
    exact fun pa a _ hi ha _ => ⟨hi.delete ha, trivial, fun b hb hne => hb.delete hi ha hne⟩
  | gc now => exact indexed_gc hi

/-! ## Whole runs -/

/-- The entries of the map and the heap: an entry is in the heap where its TTL is below
the connected one, at the position of its index and nowhere else, and the heap is
ordered by expiry. -/
structure Coherent (pa : PeerAddrs) : Prop where
  queued : ∀ k a, pa.addrs.get k = some a →
    ((∃ i, i < pa.expiringHeap.len ∧ pa.expiringHeap.item i = a) ↔
      (pa.entry a).ttl < connectedAddrTTL)
  placed : ∀ k a, pa.addrs.get k = some a → ∀ i, i < pa.expiringHeap.len →
    pa.expiringHeap.item i = a → pa.expiringHeap.index a = i
  ordered : ∀ c, 0 < c → c < pa.expiringHeap.len →
    (pa.entry (pa.expiringHeap.item ((c - 1) / 2))).expiry ≤ (pa.entry (pa.expiringHeap.item c)).expiry

theorem coherent_of_indexed (hi : pa.Indexed) : Coherent pa where
  queued k a ha := by
    have hq := hi.queued k a ha
    unfold IndexedHeap.Mem isConnected ttlIsConnected at hq
    rw [hq]
    exact not_le
  placed k a _ i hlt hat := by
    rw [← hat]
    exact hi.tracks.position i hlt
  ordered c hc hlt := hi.ordered c hc hlt

/-- Map and heap agree in every run in which no call demotes a connected entry past the
heap, and then `gc` leaves no expired entry that is not connected. -/
theorem addr_index_coherent (maxUnconnected maxSigned : Int) {mab : MemoryAddrBook}
    (h : Reach step (fun mab c => c.Ranges mab ∧ c.KeepsQueue mab)
      (newAddrBook maxUnconnected maxSigned) mab) :
    Coherent mab.addrs ∧
      ∀ now k a, (mab.gc now).addrs.addrs.get k = some a →
        ((mab.gc now).addrs.entry a).ttl < connectedAddrTTL →
          now < ((mab.gc now).addrs.entry a).expiry := by
  have hi : mab.addrs.Indexed :=
    h.invariant (I := fun mab => mab.addrs.Indexed) indexed_empty
      fun s c _ hok hs => indexed_step hs hok.1 hok.2
  refine ⟨coherent_of_indexed hi, ?_⟩
  intro now k a ha httl
  have hview : (mab.gc now).addrs.view k = some ((mab.gc now).addrs.entry a) := by
    unfold view
    rw [ha]
    rfl
  rw [view_gc hi] at hview
  have hfilter := (filter_eq_some_iff.mp hview).2
  rw [decide_eq_true_iff] at hfilter
  rcases hfilter with hc | hlt
  · exact absurd hc (not_le.mpr httl)
  · exact hlt

/-- Two addresses for ten nanoseconds and one of a connected peer; the first is then
set to the TTL of a connected peer too, and the second is updated. -/
def raised : MemoryAddrBook :=
  ((((newAddrBook 1000000 100000).step
    (.addAddrs 0 [1] [some [⟨6, [80]⟩], some [⟨6, [81]⟩]] 10)).step
    (.addAddrs 0 [1] [some [⟨6, [82]⟩]] connectedAddrTTL)).step
    (.setAddrs 5 [1] [some [⟨6, [80]⟩]] connectedAddrTTL)).step
    (.updateAddrs 7 [1] 10 20 [1, 0, 2])

theorem raised_reached : Reach step (fun mab c => c.Ranges mab ∧ c.KeepsQueue mab)
    (newAddrBook 1000000 100000) raised := by
  refine .step _ (.step _ (.step _ (.step _ .init ?_) ?_) ?_) ?_
  · exact ⟨trivial, trivial⟩
  · exact ⟨trivial, trivial⟩
  · exact ⟨trivial, .inr (.inl (by decide))⟩
  · exact ⟨by decide +kernel, .inl (by decide)⟩

theorem addr_index_coherent_raised :
    Coherent raised.addrs ∧
      ∀ now k a, (raised.gc now).addrs.addrs.get k = some a →
        ((raised.gc now).addrs.entry a).ttl < connectedAddrTTL →
          now < ((raised.gc now).addrs.entry a).expiry :=
  addr_index_coherent 1000000 100000 raised_reached

/-- The address of a connected peer, updated to ten nanoseconds when the peer leaves. -/
def demoted : MemoryAddrBook :=
  ((newAddrBook 1000000 100000).step (.addAddrs 0 [1] [some [⟨6, [80]⟩]] connectedAddrTTL)).step
    (.updateAddrs 0 [1] connectedAddrTTL 10 [0])

/-- The demoted entry is not in the heap, and `gc` leaves it in the map long after it
has expired. -/
theorem demoted_entry_leaks :
    Reach step (fun mab c => c.Ranges mab) (newAddrBook 1000000 100000) demoted ∧
      ¬ Coherent demoted.addrs ∧
      (demoted.gc 100).addrs.view ([1], [⟨6, [80]⟩]) =
        some { addr := [⟨6, [80]⟩], ttl := 10, expiry := 10, peer := [1] } := by
  refine ⟨.step _ (.step _ .init trivial) (by decide +kernel), ?_, by decide +kernel⟩
  intro hc
  have hget : demoted.addrs.addrs.get ([1], [⟨6, [80]⟩]) = some 0 := by decide +kernel
  have hlen : demoted.addrs.expiringHeap.len = 0 := by decide +kernel
  obtain ⟨i, hi, _⟩ := (hc.queued _ 0 hget).mpr (by decide +kernel)
  omega

end MemoryAddrBook

end Dep2p.Peerstore
