import Dep2p.Peerstore.MemIndex
import Mathlib.Data.List.Perm.Subperm

/- The caps of the address book in memory.

   `SetAddrs` and `UpdateAddrs` look at the cap before each address, `AddAddrs` and
   `ConsumePeerRecord` once in a call, so a long list takes the book past it
   (`add_passes_cap`). What they look at is the length of the heap, which leaves out the
   entries that were demoted past it. `caps_run` is about the runs without either. -/
namespace Dep2p.Peerstore

open Lib Function List IndexedHeap PeerAddrs ExpiringAddr Table

namespace PeerAddrs

variable {pa : PeerAddrs} {a : Nat} {e : ExpiringAddr}

/-- The stored addresses whose TTL is below that of a connected peer. -/
def unconnected (pa : PeerAddrs) : List Nat :=
  (pa.addrs.entries.map (·.2)).filter fun a => ¬ (pa.entry a).isConnected

/-- They are in the heap, each once. -/
theorem Indexed.unconnected_le (hi : pa.Indexed) :
    pa.unconnected.length ≤ pa.numUnconnectedAddrs := by
  have hnodup : (pa.addrs.entries.map (·.2)).Nodup := by
    refine hi.keyed.nodup.map_on fun x hx y hy hxy => ?_
    have hkx := hi.keyed.mem_iff.1 hx
    have hky := hi.keyed.mem_iff.1 hy
    exact Prod.ext (hi.key_unique hky (hxy ▸ hkx)) hxy
  have hsub : pa.unconnected ⊆ (range pa.numUnconnectedAddrs).map pa.expiringHeap.item := by
    intro b hb
    obtain ⟨hb, hconn⟩ := mem_filter.1 hb
    obtain ⟨⟨k, _⟩, hk, rfl⟩ := mem_map.1 hb
    obtain ⟨i, hlt, hat⟩ := (hi.queued k _ (hi.keyed.mem_iff.1 hk)).2 (by simpa using hconn)
    exact mem_map.2 ⟨i, mem_range.2 hlt, hat⟩
  simpa [unconnected] using (subperm_of_subset (hnodup.filter _) hsub).length_le

theorem num_touch_le : ((pa.write a e).update a).numUnconnectedAddrs ≤ pa.numUnconnectedAddrs := by
  grind [update, numUnconnectedAddrs, write, fix, len_remove, len_settle]

theorem num_delete : (pa.delete a).numUnconnectedAddrs ≤ pa.numUnconnectedAddrs := by
  grind [delete, numUnconnectedAddrs, len_remove]

theorem num_insert_le : (pa.insert e).numUnconnectedAddrs ≤
    pa.numUnconnectedAddrs + if ttlIsConnected e.ttl then 0 else 1 := by
  by_cases hc : e.isConnected
  · simp [insert, numUnconnectedAddrs, hc, alloc]
  · have hc' : ¬ ttlIsConnected e.ttl := hc
    simp [insert, numUnconnectedAddrs, hc, hc', push, len_up, alloc, append]

end PeerAddrs

namespace MemoryAddrBook

variable {mab : MemoryAddrBook} {pa : PeerAddrs} {p : PeerID} {ttl exp now cap : Int}

structure Capped (mab : MemoryAddrBook) : Prop where
  addrs : (mab.addrs.numUnconnectedAddrs : Int) ≤ mab.maxUnconnectedAddrs
  records : (mab.signedPeerRecords.entries.length : Int) ≤ mab.maxSignedPeerRecords

/-- The addresses of one call fit below the cap, or the call adds none. -/
def Room (mab : MemoryAddrBook) (p : PeerID) (addrs : List (Option Multiaddr)) (ttl : Int) : Prop :=
  ttl ≤ 0 ∨ ttlIsConnected ttl ∨ mab.maxUnconnectedAddrs ≤ mab.addrs.numUnconnectedAddrs ∨
    mab.addrs.numUnconnectedAddrs + (cleanAddrs addrs p).length ≤ mab.maxUnconnectedAddrs

def Call.HasRoom (mab : MemoryAddrBook) : Call → Prop
  | .addAddrs _ p addrs ttl => mab.Room p addrs ttl
  | .consumePeerRecord _ env ttl =>
    ∀ rec, env.peerRecord = .ok rec → mab.Room rec.peerID rec.addrs ttl
  | _ => True

/-- A loop whose body adds nothing adds nothing. -/
theorem num_foldl {α : Type} {body : PeerAddrs → α → PeerAddrs} {n : Int}
    (hbody : ∀ pa x, (pa.numUnconnectedAddrs : Int) ≤ n → ((body pa x).numUnconnectedAddrs : Int) ≤ n)
    (xs : List α) (h : (pa.numUnconnectedAddrs : Int) ≤ n) :
    ((xs.foldl body pa).numUnconnectedAddrs : Int) ≤ n := by
  induction xs generalizing pa with
  | nil => exact h
  | cons x xs ih => exact ih (hbody pa x h)

theorem num_addLoop (addrs : List (Option Multiaddr)) :
    (addrs.foldl (addOne p ttl exp) pa).numUnconnectedAddrs ≤
      pa.numUnconnectedAddrs + if ttlIsConnected ttl then 0 else (cleanAddrs addrs p).length := by
  induction addrs generalizing pa with
  | nil => exact Nat.le_add_right ..
  | cons m addrs ih =>
    unfold addOne cleanAddrs at *
    grind [num_touch_le, num_insert_le]

theorem capped_maybeDelete (h : mab.Capped) (p : PeerID) :
    (mab.maybeDeleteSignedPeerRecord p).Capped := by
  unfold maybeDeleteSignedPeerRecord
  split
  · exact ⟨h.addrs, Int.ofNat_le.2 (length_filter_le ..) |>.trans h.records⟩
  · exact h

theorem capped_addAddrs {addrs : List (Option Multiaddr)} (h : mab.Capped)
    (hr : mab.Room p addrs ttl) : (mab.addAddrs now p addrs ttl).Capped := by
  refine capped_maybeDelete ?_ p
  split
  · exact h
  split
  · exact h
  rename_i hpos hcap
  refine ⟨?_, h.records⟩
  have hloop := @num_addLoop mab.addrs p ttl (now + ttl) addrs
  have := h.addrs
  unfold Room at hr
  dsimp only
  split_ifs at hloop with hconn
  · omega
  · simp only [hconn, not_false_eq_true, true_and, false_or] at hcap hr
    omega

theorem length_set {K V : Type} [DecidableEq K] (t : Table K V) (k : K) (v : V) :
    (t.set k v).entries.length ≤ t.entries.length + if t.get k = none then 1 else 0 := by
  cases hk : t.get k with
  | none => simp [Table.set, erase_of_get_none hk]
  | some w =>
    have := weight_erase_add (w := fun _ => 1) hk
    simp [weight] at this
    simpa [Table.set] using this

theorem capped_step {c : Call} (h : mab.Capped) (hc : c.HasRoom mab) : (mab.step c).Capped := by
  cases c with
  | addAddrs now p addrs ttl => exact capped_addAddrs h hc
  | setAddrs now p addrs ttl =>
    refine capped_maybeDelete ?_ p
    exact ⟨num_foldl (fun _ m _ => by grind [setOne, num_touch_le, num_delete, num_insert_le]) addrs h.addrs, h.records⟩
  | updateAddrs now p oldTTL newTTL order =>
    refine capped_maybeDelete ?_ p
    exact ⟨num_foldl (fun _ a _ => by grind [updateOne, num_touch_le, num_delete]) order h.addrs, h.records⟩
  | consumePeerRecord now env ttl =>
    have hr := h.records
    simp only [step, consumePeerRecord]
    split
    · exact h
    rename_i rec hrec
    have hlen := length_set mab.signedPeerRecords rec.peerID ⟨env, rec.seq⟩
    -- a new record comes in below the cap, another one takes the place of the old
    split <;> split
    · exact h
    · exact capped_addAddrs ⟨h.addrs, by dsimp only; simp_all; omega⟩ (hc rec hrec)
    · exact h
    · exact capped_addAddrs ⟨h.addrs, by dsimp only; simp_all; omega⟩ (hc rec hrec)
  | clearAddrs p order =>
    refine ⟨num_foldl (fun pa a hn => ?_) order h.addrs, ?_⟩
    · have := @num_delete pa a
      omega
    · exact (Int.ofNat_le.2 (length_filter_le ..)).trans h.records
  | gc now =>
    simp only [step]
    fun_induction gc mab now with
    | case1 mab _ => exact h
    | case2 mab ea pa' hpop ih =>
      have hlt := len_popIfExpired hpop
      have := h.addrs
      refine ih (capped_maybeDelete ?_ _) trivial
      refine ⟨?_, h.records⟩
      unfold numUnconnectedAddrs at *
      dsimp only
      omega

theorem caps_run {maxUnconnected maxSigned : Int} (hu : 0 ≤ maxUnconnected) (hs : 0 ≤ maxSigned)
    (h : Reach step (fun mab c => c.Ranges mab ∧ c.KeepsQueue mab ∧ c.HasRoom mab)
      (newAddrBook maxUnconnected maxSigned) mab) :
    (mab.addrs.unconnected.length : Int) ≤ mab.maxUnconnectedAddrs ∧
      (mab.signedPeerRecords.entries.length : Int) ≤ mab.maxSignedPeerRecords := by
  obtain ⟨hi, hcap⟩ := h.invariant (I := fun mab => mab.addrs.Indexed ∧ mab.Capped)
    ⟨indexed_empty, hu, hs⟩
    fun s c _ hok hI => ⟨indexed_step hI.1 hok.1 hok.2.1, capped_step hI.2 hok.2.2⟩
  exact ⟨(Int.ofNat_le.2 hi.unconnected_le).trans hcap.addrs, hcap.records⟩

/-- Two addresses in one call. -/
def added (cap : Int) : MemoryAddrBook :=
  (newAddrBook cap 0).step (.addAddrs 0 [1] [some [⟨6, [80]⟩], some [⟨6, [81]⟩]] 10)

theorem caps_run_added : ((added 2).addrs.unconnected.length : Int) ≤ 2 := by
  have hr : Reach step (fun mab c => c.Ranges mab ∧ c.KeepsQueue mab ∧ c.HasRoom mab)
      (newAddrBook 2 0) (added 2) :=
    .step _ .init ⟨trivial, trivial, .inr (.inr (.inr (by decide)))⟩
  exact (caps_run (by decide) (by decide) hr).1

theorem add_passes_cap :
    Reach step (fun mab c => c.Ranges mab) (newAddrBook 1 0) (added 1) ∧
      (added 1).maxUnconnectedAddrs = 1 ∧ (added 1).addrs.unconnected.length = 2 :=
  ⟨.step _ .init trivial, rfl, by decide +kernel⟩

end MemoryAddrBook

end Dep2p.Peerstore
