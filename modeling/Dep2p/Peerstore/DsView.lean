import Dep2p.Peerstore.DsCache

/- The record of a peer in a datastore as a map from addresses to entries.

   A record is a list sorted by expiry that names no address twice (`Tidy`); `look` finds
   the entry of an address in it. What the calls of a book without a cache do to such a
   record is said in terms of `look`, so that the order of the list plays no role. -/
namespace Dep2p.Peerstore

open List AddrsRecord Slot AddrEntry

/-- The entry of an address. -/
def look (l : List AddrEntry) (addr : Multiaddr) : Option AddrEntry := l.find? (·.addr = addr)

/-- No address has two entries. -/
def Distinct (l : List AddrEntry) : Prop := (l.map (·.addr)).Nodup

/-- A list as a flush leaves it. -/
structure Tidy (l : List AddrEntry) : Prop where
  sorted : l.Pairwise (·.expiry ≤ ·.expiry)
  distinct : Distinct l

variable {sorter : ExpirySort} {now t : Int} {l l' : List AddrEntry} {addr : Multiaddr}
  {x : AddrEntry}

theorem tidy_nil : Tidy [] := ⟨.nil, nodup_nil⟩

theorem look_eq_some (h : Distinct l) : look l addr = some x ↔ x ∈ l ∧ x.addr = addr := by
  constructor
  · intro hx
    exact ⟨mem_of_find?_eq_some hx, by simpa using find?_some hx⟩
  · intro hx
    obtain ⟨hmem, haddr⟩ := hx
    cases hl : look l addr with
    | none =>
      have := find?_eq_none.mp hl x hmem
      exact absurd (decide_eq_true haddr) this
    | some y =>
      have hy : y ∈ l := mem_of_find?_eq_some hl
      have hya : y.addr = addr := by simpa using find?_some hl
      exact congrArg some (inj_on_of_nodup_map h hy hmem (hya.trans haddr.symm))

theorem look_eq_none : look l addr = none ↔ addr ∉ l.map (·.addr) := by
  unfold look
  rw [find?_eq_none, mem_map]
  constructor
  · intro h hm
    obtain ⟨y, hy, hya⟩ := hm
    exact h y hy (decide_eq_true hya)
  · intro h y hy hya
    exact h ⟨y, hy, of_decide_eq_true hya⟩

/-- Two lists of distinct addresses with the same members have the same entries. -/
theorem look_congr (h : Distinct l) (h' : Distinct l') (hmem : ∀ y, y ∈ l ↔ y ∈ l') :
    look l addr = look l' addr := by
  apply Option.ext
  intro y
  rw [look_eq_some h, look_eq_some h', hmem]

theorem Distinct.perm (h : Distinct l) (hp : l'.Perm l) : Distinct l' :=
  (hp.map _).nodup_iff.mpr h

theorem Distinct.filter (h : Distinct l) (q : AddrEntry → Bool) : Distinct (l.filter q) :=
  .sublist (.map _ filter_sublist) h

theorem look_filter (h : Distinct l) (q : AddrEntry → Bool) :
    look (l.filter q) addr = (look l addr).filter q := by
  apply Option.ext
  intro y
  rw [look_eq_some (h.filter q), Option.filter_eq_some_iff, look_eq_some h, mem_filter]
  constructor <;> exact fun hy => ⟨⟨hy.1.1, hy.2⟩, hy.1.2⟩

theorem look_map {f : AddrEntry → AddrEntry} (hf : ∀ e, (f e).addr = e.addr) :
    look (l.map f) addr = (look l addr).map f := by
  unfold look
  rw [find?_map]
  congr 2
  funext e
  simp [hf]

/-! ## Cleaning -/

theorem removeExpired_eq_filter (h : l.Pairwise (·.expiry ≤ ·.expiry)) :
    removeExpired l t = l.filter fun e => t < e.expiry := by
  unfold removeExpired
  induction l with
  | nil => rfl
  | cons e es ih =>
    rw [pairwise_cons] at h
    by_cases he : e.expiry ≤ t
    · have hnot : ¬ t < e.expiry := not_lt.mpr he
      rw [dropWhile_cons, if_pos (decide_eq_true he), filter_cons,
        if_neg (by simpa using he), ih h.2]
    · -- the rest expires no earlier than the first
      have hall : ∀ y ∈ es, t < y.expiry := fun y hy => lt_of_lt_of_le (not_le.mp he) (h.1 y hy)
      rw [dropWhile_cons, if_neg (by simpa using he), filter_cons,
        if_pos (decide_eq_true (not_le.mp he)), filter_eq_self.mpr]
      intro y hy
      exact decide_eq_true (hall y hy)

theorem Tidy.removeExpired (h : Tidy l) (t : Int) : Tidy (removeExpired l t) := by
  rw [removeExpired_eq_filter h.sorted]
  exact ⟨h.sorted.filter _, h.distinct.filter _⟩

theorem Tidy.look_removeExpired (h : Tidy l) :
    look (Peerstore.removeExpired l t) addr = (look l addr).filter fun e => t < e.expiry := by
  rw [removeExpired_eq_filter h.sorted, look_filter h.distinct]

/-- Settling a list sorts it and drops what has expired. -/
theorem settled_spec (sorter : ExpirySort) (now : Int) (h : Distinct l) :
    Tidy (settled sorter now l) ∧
      ∀ addr, look (settled sorter now l) addr =
        (look l addr).filter fun e => unix now < e.expiry := by
  unfold settled
  have hs : Tidy (if 1 < l.length then sorter.sort l else l) ∧
      (if 1 < l.length then sorter.sort l else l).Perm l := by
    split
    · exact ⟨⟨sorter.sorted l, h.perm (sorter.perm l)⟩, sorter.perm l⟩
    rename_i hlen
    refine ⟨⟨?_, h⟩, .refl _⟩
    cases l with
    | nil => exact .nil
    | cons e es =>
      cases es with
      | nil => exact pairwise_singleton _ _
      | cons e' es => exact absurd (Nat.succ_lt_succ (Nat.succ_pos _)) hlen
  refine ⟨hs.1.removeExpired _, fun addr => ?_⟩
  rw [hs.1.look_removeExpired, look_congr hs.1.distinct h fun y => hs.2.mem_iff]

/-! ## Merging -/

theorem addr_rewrite (mode : TtlWriteMode) (ttl newExp : Int) (e : AddrEntry) :
    (e.rewrite mode ttl newExp).addr = e.addr := by
  cases mode <;> rfl

theorem addr_retime (oldTTL newTTL newExp : Int) (e : AddrEntry) :
    (e.retime oldTTL newTTL newExp).addr = e.addr := by
  unfold retime
  split <;> rfl

variable {mode : TtlWriteMode} {ttl newExp : Int} {incoming : Multiaddr}

/-- `updateExisting` finds nothing where the address is not in the record. -/
theorem updateExisting_none (h : updateExisting mode ttl newExp incoming l = none) :
    look l incoming = none := by
  rw [look_eq_none]
  induction l with
  | nil => exact not_mem_nil
  | cons e es ih =>
    unfold updateExisting at h
    cases hes : updateExisting mode ttl newExp incoming es with
    | some es' =>
      rw [hes] at h
      cases h
    | none =>
      rw [hes] at h
      simp only at h
      split at h
      · cases h
      · rename_i hne
        rw [map_cons, mem_cons, not_or]
        exact ⟨Ne.symm hne, ih hes⟩

/-- Otherwise it rewrites the entry of the address. -/
theorem updateExisting_some (hd : Distinct l) (h : updateExisting mode ttl newExp incoming l = some l') :
    l'.map (·.addr) = l.map (·.addr) ∧
      look l' incoming = (look l incoming).map (rewrite mode ttl newExp) ∧
      (look l incoming).isSome ∧ ∀ addr, addr ≠ incoming → look l' addr = look l addr := by
  induction l generalizing l' with
  | nil => cases h
  | cons e es ih =>
    unfold Distinct at hd
    rw [map_cons, nodup_cons] at hd
    unfold updateExisting at h
    cases hes : updateExisting mode ttl newExp incoming es with
    | some es' =>
      rw [hes] at h
      simp only [Option.some.injEq] at h
      obtain ⟨haddrs, hlook, hsome, hrest⟩ := ih hd.2 hes
      subst h
      -- the first entry is of another address, since the rest has this one
      have hne : e.addr ≠ incoming := by
        intro heq
        rw [← heq] at hsome
        rw [look_eq_none.mpr hd.1] at hsome
        cases hsome
      refine ⟨by rw [map_cons, map_cons, haddrs], ?_, ?_, ?_⟩
      · unfold look at hlook ⊢
        simp only [find?_cons, hne]
        exact hlook
      · unfold look at hsome ⊢
        simp only [find?_cons, hne]
        exact hsome
      · intro addr haddr
        have hr := hrest addr haddr
        unfold look at hr ⊢
        rw [find?_cons, find?_cons, hr]
    | none =>
      rw [hes] at h
      simp only at h
      split at h
      · rename_i heq
        simp only [Option.some.injEq] at h
        subst h
        refine ⟨by rw [map_cons, map_cons, addr_rewrite], ?_, ?_, ?_⟩
        · unfold look
          simp only [find?_cons, addr_rewrite, heq, decide_true, Option.map_some]
        · unfold look
          simp only [find?_cons, heq, decide_true, Option.isSome_some]
        · intro addr haddr
          have hne : e.addr ≠ addr := fun hea => haddr (hea.symm.trans heq)
          unfold look
          simp only [find?_cons, addr_rewrite, hne, decide_false]
      · cases h

/-- What `setAddrs` makes of the entry of an address. -/
def mergedTo (mode : TtlWriteMode) (ttl newExp : Int) (addr : Multiaddr) :
    Option AddrEntry → AddrEntry
  | none => ⟨addr, ttl, newExp⟩
  | some e => e.rewrite mode ttl newExp

theorem look_append :
    look (l ++ l') addr = (look l addr).or (look l' addr) := find?_append

/-- The loop of `setAddrs` over different addresses, none of which is among the new
entries so far. -/
theorem mergeAddrs_spec (mode : TtlWriteMode) (ttl newExp : Int) (args : List Multiaddr)
    {old entries : List AddrEntry} (hd : Distinct (old ++ entries)) (hargs : args.Nodup)
    (hnew : ∀ a ∈ args, look entries a = none) :
    Distinct ((mergeAddrs mode ttl newExp (old, entries) args).1 ++
        (mergeAddrs mode ttl newExp (old, entries) args).2) ∧
      ∀ addr, look ((mergeAddrs mode ttl newExp (old, entries) args).1 ++
          (mergeAddrs mode ttl newExp (old, entries) args).2) addr =
        if addr ∈ args then some (mergedTo mode ttl newExp addr (look old addr))
        else look (old ++ entries) addr := by
  induction args generalizing old entries with
  | nil =>
    refine ⟨hd, fun addr => ?_⟩
    rfl
  | cons incoming rest ih =>
    rw [nodup_cons] at hargs
    have hold : Distinct old := .sublist (.map _ (sublist_append_left ..)) hd
    have hin : look entries incoming = none := hnew incoming mem_cons_self
    unfold mergeAddrs
    cases hup : updateExisting mode ttl newExp incoming old with
    | some old' =>
      obtain ⟨haddrs, hlook, hsome, hrest⟩ := updateExisting_some hold hup
      have hd' : Distinct (old' ++ entries) := by
        unfold Distinct at hd ⊢
        rw [map_append, haddrs, ← map_append]
        exact hd
      obtain ⟨hdist, hres⟩ := ih hd' hargs.2 fun a ha => hnew a (mem_cons_of_mem _ ha)
      refine ⟨hdist, fun addr => ?_⟩
      rw [hres addr]
      by_cases hai : addr = incoming
      · obtain ⟨e, he⟩ := Option.isSome_iff_exists.mp hsome
        rw [hai, if_neg hargs.1, if_pos mem_cons_self, look_append, hlook, he]
        rfl
      · rw [look_append, hrest addr hai, ← look_append]
        simp [hai]
    | none =>
      have hnone := updateExisting_none hup
      have hd' : Distinct (old ++ (entries ++ [⟨incoming, ttl, newExp⟩])) := by
        unfold Distinct at hd ⊢
        rw [← append_assoc, map_append, nodup_append]
        refine ⟨hd, nodup_singleton _, ?_⟩
        intro a ha b hb hab
        have hb : b = incoming := mem_singleton.mp hb
        have hlook : look (old ++ entries) incoming = none := by
          rw [look_append, hnone, hin]
          rfl
        apply look_eq_none.mp hlook
        rw [← hb, ← hab]
        exact ha
      obtain ⟨hdist, hres⟩ := ih hd' hargs.2 (by
        intro a ha
        have hne : incoming ≠ a := fun hia => hargs.1 (hia ▸ ha)
        rw [look_append, hnew a (mem_cons_of_mem _ ha)]
        simp [look, hne])
      refine ⟨hdist, fun addr => ?_⟩
      rw [hres addr]
      by_cases hai : addr = incoming
      · rw [hai, look_append, look_append, hnone, hin]
        simp [look, mergedTo]
      · have hone : look [⟨incoming, ttl, newExp⟩] addr = none := by
          simp [look, Ne.symm hai]
        rw [← append_assoc, look_append, hone, Option.or_none]
        simp [hai]

/-! ## The calls of a book without a cache -/

variable {b b' : Slot}

theorem addrs_put (l : List AddrEntry) (cert : Option CertifiedRecord) :
    ((put l cert).getD {}).addrs = l := by
  unfold put
  split
  · rename_i hnil
    exact hnil.symm
  · rfl

theorem setAddrs_plain (sorter : ExpirySort) (hit : Bool) (now ttl : Int) (mode : TtlWriteMode)
    (h : b.cached = none) (ht : Tidy b.record.addrs) {args : List Multiaddr}
    (hargs : args.Nodup) (hne : args ≠ []) :
    Tidy (b.setAddrs sorter false hit now args ttl mode).record.addrs ∧
      ∀ addr, look (b.setAddrs sorter false hit now args ttl mode).record.addrs addr =
        ((if addr ∈ args then
            some (mergedTo mode ttl (unix (now + ttl)) addr
              ((look b.record.addrs addr).filter fun e => unix now < e.expiry))
          else (look b.record.addrs addr).filter fun e => unix now < e.expiry) :
          Option AddrEntry).filter fun e => unix now < e.expiry := by
  have hl := load_plain sorter hit true now h
  have hlive := ht.removeExpired (unix now)
  unfold setAddrs
  rw [if_neg hne]
  dsimp only
  rw [clean_of_dirty rfl, record_of_stored (stored_flushHeld ..), addrs_put]
  rw [hl.addrs]
  have hd : Distinct (removeExpired b.record.addrs (unix now) ++ []) := by
    rw [append_nil]
    exact hlive.distinct
  have hm := mergeAddrs_spec mode ttl (unix (now + ttl)) args hd hargs fun _ _ => rfl
  have hs := settled_spec sorter now hm.1
  refine ⟨hs.1, fun addr => ?_⟩
  rw [hs.2 addr, hm.2 addr, append_nil, ht.look_removeExpired]

theorem updateAddrs_plain (sorter : ExpirySort) (hit : Bool) (now oldTTL newTTL : Int)
    (h : b.cached = none) (ht : Tidy b.record.addrs) :
    Tidy (b.updateAddrs sorter false hit now oldTTL newTTL).record.addrs ∧
      ∀ addr, (look (b.updateAddrs sorter false hit now oldTTL newTTL).record.addrs addr).filter
          (fun e => unix now < e.expiry) =
        (((look b.record.addrs addr).filter fun e => unix now < e.expiry).map
          (retime oldTTL newTTL (unix (now + newTTL)))).filter
            fun e => unix now < e.expiry := by
  have hl := load_plain sorter hit true now h
  have hlive := ht.removeExpired (unix now)
  unfold updateAddrs
  dsimp only
  rw [hl.kept.clean, Bool.false_or, hl.addrs]
  cases hany : (removeExpired b.record.addrs (unix now)).any fun e => e.ttl = oldTTL with
  | true =>
    rw [clean_of_dirty rfl]
    rw [if_pos rfl, record_of_stored (stored_flushHeld ..), addrs_put]
    have hd : Distinct ((removeExpired b.record.addrs (unix now)).map
        (retime oldTTL newTTL (unix (now + newTTL)))) := by
      unfold Distinct
      rw [map_map]
      have hcomp : ((fun e : AddrEntry => e.addr) ∘ retime oldTTL newTTL (unix (now + newTTL))) =
          fun e => e.addr := funext fun e => addr_retime ..
      rw [hcomp]
      exact hlive.distinct
    have hs := settled_spec sorter now hd
    refine ⟨hs.1, fun addr => ?_⟩
    rw [hs.2 addr, look_map (addr_retime oldTTL newTTL _), ht.look_removeExpired, Option.filter_filter]
    simp
  | false =>
    -- no entry has the old TTL, and nothing is written
    have hsame : ∀ e ∈ removeExpired b.record.addrs (unix now),
        e.retime oldTTL newTTL (unix (now + newTTL)) = e := by
      intro e he
      have hne := any_eq_false.mp hany e he
      rw [decide_eq_true_iff] at hne
      exact if_pos hne
    have hstill : ∀ (c : Option CertifiedRecord) (n : Bool),
        clean sorter ⟨⟨removeExpired b.record.addrs (unix now), c⟩, false, n⟩ now =
          (false, ⟨⟨removeExpired b.record.addrs (unix now), c⟩, false, n⟩) :=
      fun _ _ => clean_still rfl (removeExpired_removeExpired (le_refl _))
    rw [map_retime_of_none hany, hstill]
    rw [hl.slot]
    refine ⟨ht, fun addr => ?_⟩
    show (look b.record.addrs addr).filter _ = _
    rw [← ht.look_removeExpired]
    cases hlook : look (removeExpired b.record.addrs (unix now)) addr with
    | none => rfl
    | some e =>
      have he : e ∈ removeExpired b.record.addrs (unix now) := mem_of_find?_eq_some hlook
      rw [Option.map_some, hsame e he, ← hlook, ht.look_removeExpired, Option.filter_filter]
      simp

/-- A flush of a record changes none of its entries that are not expired. -/
theorem Shrunk.tidy (h : Shrunk t b b') (ht : Tidy b.record.addrs) :
    Tidy b'.record.addrs ∧ ∀ addr,
      (look b'.record.addrs addr).filter (fun e => t < e.expiry) =
        (look b.record.addrs addr).filter fun e => t < e.expiry := by
  rcases h with hs | hs
  · rw [record_of_stored hs.1]
    exact ⟨ht, fun _ => rfl⟩
  · rw [record_of_stored hs, addrs_put]
    refine ⟨ht.removeExpired t, fun addr => ?_⟩
    rw [ht.look_removeExpired, Option.filter_filter]
    simp

end Dep2p.Peerstore
