import Dep2p.Peerstore.DsBook

/- The cache of the address book over a datastore.

   A record whose addresses have all expired is deleted from the datastore when it is
   flushed, and its signed record with it; the copy in the cache keeps the signed record.
   The next addresses that `AddAddrs` or `SetAddrs` writes for the peer bring it back,
   so a book with a cache hands out an envelope that a book without one has forgotten.

   What is proved:
     1. `Covers` — what a copy of a record has in common with the stored record of a
        book without a cache: the addresses that are not expired, and the signed record
        where there are any.
     2. `Tied.exec` — one call on both books gives the same reply and keeps that, if it
        brings no signed record back (`NoRevival`).
     3. `cache_transparent` — the replies are the same in every run of such calls.
     4. `cached_record_revived` — an envelope only the book with a cache has. -/
namespace Dep2p.Peerstore

open Lib Function List Slot AddrsRecord DsAddrBook Option Multiaddr.Wire

variable {sorter : ExpirySort} {now t t' : Int} {l : List AddrEntry} {ε : Type}
  {ps : Multiaddr.Protocols ε}

/-! ## Cleaning a record -/

/-- Removing what expired later includes what expired earlier. -/
theorem removeExpired_removeExpired (h : t ≤ t') :
    removeExpired (removeExpired l t) t' = removeExpired l t' := by
  induction l with
  | nil => rfl
  | cons e es ih =>
    unfold removeExpired at ih ⊢
    by_cases he : e.expiry ≤ t
    · have he' : e.expiry ≤ t' := he.trans h
      simp only [dropWhile_cons, he, he']
      exact ih
    · simp [dropWhile_cons, he]

namespace AddrsRecord

variable {r : AddrsRecord}

theorem removeExpired_of_hasExpired (h : r.hasExpiredAddrs t = false) :
    removeExpired r.addrs t = r.addrs := by
  unfold hasExpiredAddrs at h
  unfold removeExpired
  cases hr : r.addrs with
  | nil => rfl
  | cons e es =>
    rw [hr] at h
    simp only at h
    rw [dropWhile_cons, h]
    rfl

/-- A record that was not changed loses its expired addresses, and reports whether it
lost any. -/
theorem clean_of_clean (sorter : ExpirySort) (now : Int) (h : r.dirty = false) :
    (r.clean sorter now).2 = { r with addrs := removeExpired r.addrs (unix now) } ∧
      ((r.clean sorter now).1 = false ↔ removeExpired r.addrs (unix now) = r.addrs) := by
  unfold clean
  simp only [h, Bool.not_false, Bool.true_and, Bool.false_eq_true, false_and,
    Bool.false_or]
  cases he : r.hasExpiredAddrs (unix now) with
  | false =>
    have hsame := removeExpired_of_hasExpired he
    simp only [Bool.not_false, if_true, hsame]
    refine ⟨?_, trivial⟩
    rw [← h]
  | true =>
    have hne : r.addrs.length ≠ 0 := by
      intro h0
      unfold hasExpiredAddrs at he
      rw [length_eq_zero_iff.mp h0] at he
      cases he
    simp only [Bool.not_true, Bool.false_eq_true, if_false, hne, true_and, bne_eq_false_iff_eq]
    constructor
    · exact (dropWhile_suffix _).eq_of_length
    · exact congrArg length

theorem clean_still (h : r.dirty = false)
    (hlive : removeExpired r.addrs (unix now) = r.addrs) : r.clean sorter now = (false, r) := by
  obtain ⟨hrec, hsame⟩ := clean_of_clean sorter now h
  refine Prod.ext (hsame.mpr hlive) (hrec.trans ?_)
  rw [hlive]

/-- What a changed record keeps of its addresses. -/
def settled (sorter : ExpirySort) (now : Int) (l : List AddrEntry) : List AddrEntry :=
  removeExpired (if 1 < l.length then sorter.sort l else l) (unix now)

theorem clean_of_dirty (h : r.dirty = true) :
    r.clean sorter now = (true, { r with addrs := settled sorter now r.addrs }) := by
  unfold clean
  simp only [h, Bool.not_true, Bool.false_and, Bool.false_eq_true, if_false, true_and]
  split
  · rename_i h0
    have hnil : settled sorter now r.addrs = r.addrs := by
      rw [length_eq_zero_iff.mp h0]
      rfl
    rw [hnil, ← h]
  · rfl

end AddrsRecord

/-- The record is flushed, and a nil slice is empty. -/
structure AddrsRecord.Kept (r : AddrsRecord) : Prop where
  clean : r.dirty = false
  empty : r.nilAddrs = true → r.addrs = []

/-! ## Loading a record -/

variable {s : Slot}

namespace Slot

/-- The record the datastore has for the peer. -/
def record (s : Slot) : AddrBookRecord := s.stored.getD {}

theorem record_of_stored {x : Option AddrBookRecord} (h : s.stored = x) : s.record = x.getD {} := by
  unfold record
  rw [h]

/-- The record that `loadRecord` starts from. -/
def seen (hit : Bool) (s : Slot) : AddrsRecord :=
  match if hit then s.cached else none with
  | some pr => pr
  | none =>
    match s.stored with
    | none => { nilAddrs := true }
    | some data => { data with }

variable {caching hit keep update : Bool} {s a b : Slot}

theorem seen_cases :
    s.cached = some (s.seen hit) ∨
      (s.seen hit).Kept ∧ (s.seen hit).toAddrBookRecord = s.record := by
  have hstored : ∀ x : Option AddrBookRecord,
      (match x with | none => ({ nilAddrs := true } : AddrsRecord) | some data => { data with }).Kept ∧
      (match x with | none => ({ nilAddrs := true } : AddrsRecord) | some data => { data with }
        ).toAddrBookRecord = x.getD {} := by
    intro x
    cases x with
    | none => exact ⟨⟨rfl, fun _ => rfl⟩, rfl⟩
    | some data => exact ⟨⟨rfl, fun h => by cases h⟩, rfl⟩
  unfold seen record
  cases hf : (if hit then s.cached else none) with
  | some pr =>
    left
    cases hit with
    | true => exact hf
    | false => cases hf
  | none => exact .inr (hstored s.stored)

/-- What a flush leaves in the datastore. -/
def put (l : List AddrEntry) (cert : Option CertifiedRecord) : Option AddrBookRecord :=
  if l = [] then none else some ⟨l, cert⟩

theorem stored_flushHeld (pr : AddrsRecord) :
    (s.flushHeld pr).stored = put pr.addrs pr.certifiedRecord := rfl

theorem cached_flushHeld (pr : AddrsRecord) :
    (s.flushHeld pr).cached = s.cached.map fun _ => { pr with dirty := false } := rfl

/-- What `loadRecord` gives, and what it leaves: the record loaded is the one seen
without its expired addresses, the cache holds that or nothing, and the datastore is
written only by an update that changed the record. -/
structure Loaded (v : AddrsRecord) (now : Int) (update : Bool) (s : Slot) (out : AddrsRecord × Slot) :
    Prop where
  fst : out.1 = { v with addrs := removeExpired v.addrs (unix now) }
  cached : out.2.cached = none ∨ out.2.cached = some out.1
  stored : out.2.stored = s.stored ∧ (update = true → removeExpired v.addrs (unix now) = v.addrs) ∨
    update = true ∧ out.2.stored = put (removeExpired v.addrs (unix now)) v.certifiedRecord

section

variable {v : AddrsRecord} {out : AddrsRecord × Slot}

theorem Loaded.eq_of_cached (h : Loaded v now update s out) {r : AddrsRecord}
    (hr : out.2.cached = some r) : r = out.1 := by
  rcases h.cached with hc | hc
  · rw [hc] at hr
    cases hr
  · rw [hc] at hr
    exact (some.inj hr).symm

theorem Loaded.stored_eq (h : Loaded v now false s out) : out.2.stored = s.stored := by
  rcases h.stored with hs | hs
  · exact hs.1
  · cases hs.1

theorem Loaded.kept (h : Loaded v now update s out) (hv : v.Kept) : out.1.Kept := by
  rw [h.fst]
  refine ⟨hv.clean, ?_⟩
  intro hnil
  rw [hv.empty hnil]
  rfl

end

theorem loadRecord_loaded (sorter : ExpirySort) (now : Int) (caching hit keep update : Bool)
    (hclean : (s.seen hit).dirty = false) :
    Loaded (s.seen hit) now update s (s.loadRecord sorter caching hit now keep update) := by
  unfold loadRecord
  unfold seen at hclean ⊢
  cases hf : (if hit then s.cached else none) with
  | some pr =>
    rw [hf] at hclean
    dsimp only at hclean ⊢
    have hcached : s.cached = some pr := by
      cases hit with
      | true => exact hf
      | false => cases hf
    obtain ⟨hrec, hsame⟩ := clean_of_clean sorter now hclean
    cases hchg : (pr.clean sorter now).1 && update with
    | true =>
      rw [if_pos rfl]
      refine ⟨?_, .inr ?_, .inr ⟨(Bool.and_eq_true_iff.mp hchg).2, ?_⟩⟩
      · simp [flush, hrec, hclean]
      · simp [flush, hold, hcached]
      · simp [flush, hold, hrec, put]
    | false =>
      rw [if_neg Bool.false_ne_true]
      refine ⟨hrec, .inr ?_, .inl ⟨rfl, ?_⟩⟩
      · simp [hold, hcached]
      · intro hu
        rw [hu, Bool.and_true] at hchg
        exact hsame.mp hchg
  | none =>
    -- a miss: the entry has left the cache, and comes back if `keep` says so
    rw [hf] at hclean
    have hadd : ∀ (pr : AddrsRecord) (s' : Slot), s'.cached = none →
        ((if keep && caching then { s' with cached := some pr } else s').cached = none ∨
          (if keep && caching then { s' with cached := some pr } else s').cached = some pr) ∧
        (if keep && caching then { s' with cached := some pr } else s').stored = s'.stored := by
      intro pr s' hnone
      split
      · exact ⟨.inr rfl, rfl⟩
      · exact ⟨.inl hnone, rfl⟩
    cases hst : s.stored with
    | none =>
      obtain ⟨hc, hs⟩ := hadd { nilAddrs := true } { s with cached := none } rfl
      rw [hst] at hc hs
      exact ⟨rfl, hc, .inl ⟨hs.trans hst.symm, fun _ => rfl⟩⟩
    | some data =>
      dsimp only
      have hd : (({ data with } : AddrsRecord)).dirty = false := rfl
      obtain ⟨hrec, hsame⟩ := clean_of_clean sorter now hd
      cases hchg : ((({ data with } : AddrsRecord)).clean sorter now).1 && update with
      | true =>
        rw [if_pos rfl]
        obtain ⟨hc, hs⟩ := hadd _ (flush ⟨none, some data⟩
          ((({ data with } : AddrsRecord)).clean sorter now).2).2 rfl
        refine ⟨?_, hc, .inr ⟨(Bool.and_eq_true_iff.mp hchg).2, hs.trans ?_⟩⟩
        · simp [flush, hrec]
        · simp [flush, hrec, put]
      | false =>
        obtain ⟨hc, hs⟩ := hadd ((({ data with } : AddrsRecord)).clean sorter now).2
          ⟨none, some data⟩ rfl
        refine ⟨hrec, hc, .inl ⟨hs.trans hst.symm, ?_⟩⟩
        intro hu
        rw [hu, Bool.and_true] at hchg
        exact hsame.mp hchg

end Slot

/-! ## Two books -/

/-- A copy `v` of a record against the record `b` of a book without a cache, at time
`t`: they have the same addresses that are not expired. Where `signed` holds, they have
the same signed record if there are such addresses, and `b` has no signed record that `v`
has not. -/
structure Covers (signed : Prop) (t : Int) (v b : AddrBookRecord) : Prop where
  live : removeExpired v.addrs t = removeExpired b.addrs t
  cert : signed → removeExpired b.addrs t ≠ [] → v.certifiedRecord = b.certifiedRecord
  lost : signed → b.certifiedRecord = none ∨ b.certifiedRecord = v.certifiedRecord

namespace Covers

variable {signed : Prop} {v b : AddrBookRecord}

theorem refl (signed : Prop) (t : Int) (v : AddrBookRecord) : Covers signed t v v :=
  ⟨rfl, fun _ _ => rfl, fun _ => .inr rfl⟩

section

variable (h : Covers signed t v b)
include h

theorem mono (ht : t ≤ t') : Covers signed t' v b where
  live := by
    rw [← removeExpired_removeExpired ht, h.live, removeExpired_removeExpired ht]
  cert hs hne := by
    apply h.cert hs
    intro hnil
    rw [← removeExpired_removeExpired ht, hnil] at hne
    exact hne rfl
  lost := h.lost

theorem unsigned : Covers False t v b :=
  ⟨h.live, fun hf => hf.elim, fun hf => hf.elim⟩

/-- Cleaning changes neither side. -/
theorem clean_left : Covers signed t { v with addrs := removeExpired v.addrs t } b :=
  ⟨(removeExpired_removeExpired (le_refl t)).trans h.live, h.cert, h.lost⟩

/-- What a flush leaves of the record without a cache is still covered. -/
theorem put_right :
    Covers signed t v ((put (removeExpired b.addrs t) b.certifiedRecord).getD {}) := by
  unfold put
  split
  · rename_i hnil
    exact ⟨h.live.trans hnil, fun _ hne => absurd rfl hne, fun _ => .inl rfl⟩
  · refine ⟨h.live.trans (removeExpired_removeExpired (le_refl t)).symm, ?_, h.lost⟩
    intro hs hne
    apply h.cert hs
    rwa [getD_some, removeExpired_removeExpired (le_refl t)] at hne

end

end Covers

/-- The slot of a peer in a book with a cache against its slot in a book without: the
stored record and the cached one cover the stored record on the other side. -/
structure Tied (signed : Prop) (t : Int) (a b : Slot) : Prop where
  plain : b.cached = none
  full : ∀ r, b.stored = some r → r.addrs ≠ []
  kept : ∀ r, a.cached = some r → r.Kept
  stored : Covers signed t a.record b.record
  cached : ∀ r, a.cached = some r → Covers signed t r.toAddrBookRecord b.record

variable {signed : Prop} {a b : Slot} {caching hit : Bool}

theorem tied_empty : Tied signed t {} {} where
  plain := rfl
  full _ h := by cases h
  kept _ h := by cases h
  stored := .refl signed t _
  cached _ h := by cases h

section

variable (h : Tied signed t a b)
include h

theorem Tied.mono (ht : t ≤ t') : Tied signed t' a b :=
  ⟨h.plain, h.full, h.kept, h.stored.mono ht, fun r hr => (h.cached r hr).mono ht⟩

theorem Tied.unsigned : Tied False t a b :=
  ⟨h.plain, h.full, h.kept, h.stored.unsigned, fun r hr => (h.cached r hr).unsigned⟩

theorem Tied.seen_kept (hit : Bool) : (a.seen hit).Kept := by
  rcases seen_cases with hc | hc
  · exact h.kept _ hc
  · exact hc.1

theorem Tied.seen_covers (hit : Bool) : Covers signed t (a.seen hit).toAddrBookRecord b.record := by
  rcases seen_cases with hc | hc
  · exact h.cached _ hc
  · rw [hc.2]
    exact h.stored

end

variable {l : List AddrEntry} {pa pb : AddrsRecord} {sa sb : Slot}

/-- Both books have written one list of addresses. -/
theorem tied_put {ca cb : Option CertifiedRecord}
    (hcert : signed → l ≠ [] → ca = cb)
    (hb : b.cached = none) (hbs : b.stored = put l cb) (has : a.stored = put l ca)
    (hac : ∀ r, a.cached = some r → r.Kept ∧ r.addrs = l ∧ r.certifiedRecord = ca) :
    Tied signed t a b := by
  have hbr : b.record = (put l cb).getD {} := record_of_stored hbs
  have har : a.record = (put l ca).getD {} := record_of_stored has
  unfold put at hbs hbr har
  by_cases hl : l = []
  · rw [if_pos hl] at hbs hbr har
    refine ⟨hb, ?_, fun r hr => (hac r hr).1, ?_, ?_⟩
    · intro r hr
      rw [hbs] at hr
      cases hr
    · rw [har, hbr]
      exact .refl signed t _
    · intro r hr
      rw [hbr]
      refine ⟨?_, fun _ hne => absurd rfl hne, fun _ => .inl rfl⟩
      rw [(hac r hr).2.1, hl]
      rfl
  · rw [if_neg hl] at hbs hbr har
    refine ⟨hb, ?_, fun r hr => (hac r hr).1, ?_, ?_⟩
    · intro r hr
      rw [hbs] at hr
      rw [← some.inj hr]
      exact hl
    · rw [har, hbr]
      exact ⟨rfl, fun hs _ => hcert hs hl, fun hs => .inr (hcert hs hl).symm⟩
    · intro r hr
      obtain ⟨_, h₁, h₂⟩ := hac r hr
      rw [hbr]
      refine ⟨by rw [h₁]; rfl, fun hs _ => h₂.trans (hcert hs hl), fun hs => .inr ?_⟩
      rw [h₂]
      exact (hcert hs hl).symm

/-- The same, after `flushHeld` of the records `pa` and `pb`. -/
theorem tied_flushHeld (hsb : sb.cached = none)
    (haddrs : pa.addrs = pb.addrs) (hnil : pa.nilAddrs = true → pa.addrs = [])
    (hcert : signed → pb.addrs ≠ [] → pa.certifiedRecord = pb.certifiedRecord) :
    Tied signed t (sa.flushHeld pa) (sb.flushHeld pb) := by
  apply tied_put hcert
  · rw [cached_flushHeld, hsb]
    rfl
  · exact stored_flushHeld pb
  · rw [stored_flushHeld, haddrs]
  · intro r hr
    obtain ⟨_, _, hr⟩ := map_eq_some_iff.mp hr
    rw [← hr]
    exact ⟨⟨rfl, hnil⟩, haddrs, rfl⟩

/-! ## One load on both sides -/

theorem Slot.seen_plain (h : b.cached = none) (hit : Bool) :
    (b.seen hit).Kept ∧ (b.seen hit).toAddrBookRecord = b.record := by
  rcases seen_cases with hc | hc
  · rw [h] at hc
    cases hc
  · exact hc

/-- Without a cache nothing is cached. -/
theorem Slot.cached_load_plain (sorter : ExpirySort) (hit keep update : Bool) (now : Int)
    (h : b.cached = none) : (b.loadRecord sorter false hit now keep update).2.cached = none := by
  have hmiss : (if hit then b.cached else none) = none := by
    rw [h]
    exact ite_self _
  unfold loadRecord
  rw [hmiss]
  dsimp only
  rw [Bool.and_false, if_neg Bool.false_ne_true]
  cases b.stored with
  | none => rfl
  | some data =>
    dsimp only
    split <;> rfl

/-- A nil slice is that of a peer without a record. -/
theorem Slot.nil_seen_plain (h : b.cached = none) (hnil : (b.seen hit).nilAddrs = true) :
    b.stored = none := by
  have hmiss : (if hit then b.cached else none) = none := by
    rw [h]
    exact ite_self _
  unfold seen at hnil
  rw [hmiss] at hnil
  cases hst : b.stored with
  | none => rfl
  | some data =>
    rw [hst] at hnil
    cases hnil

/-- A load that writes nothing, in a book without a cache. -/
structure LoadedPlain (t : Int) (b : Slot) (lb : AddrsRecord × Slot) : Prop where
  addrs : lb.1.addrs = removeExpired b.record.addrs t
  cert : lb.1.certifiedRecord = b.record.certifiedRecord
  kept : lb.1.Kept
  nil : lb.1.nilAddrs = true → b.stored = none
  slot : lb.2 = b

theorem Slot.load_plain (sorter : ExpirySort) (hit keep : Bool) (now : Int) (h : b.cached = none) :
    LoadedPlain (unix now) b (b.loadRecord sorter false hit now keep false) := by
  obtain ⟨hkept, hrec⟩ := seen_plain h hit
  have hl := loadRecord_loaded sorter now false hit keep false hkept.clean
  refine ⟨?_, ?_, hl.kept hkept, ?_, ?_⟩
  · rw [hl.fst, hrec]
  · rw [hl.fst, ← hrec]
  · intro hnil
    rw [hl.fst] at hnil
    exact nil_seen_plain h hnil
  · have hcached := cached_load_plain sorter hit keep false now h
    have hstored := hl.stored_eq
    rw [← h] at hcached
    cases hout : (b.loadRecord sorter false hit now keep false).2
    rw [hout] at hcached hstored
    cases b
    simp only at hcached hstored
    rw [hcached, hstored]

/-- A load that writes nothing gives both books records with the same addresses, and
leaves their slots tied. -/
structure LoadedBoth (signed : Prop) (t : Int) (a b : Slot) (hit : Bool) (la lb : AddrsRecord × Slot) :
    Prop where
  right : LoadedPlain t b lb
  addrs : la.1.addrs = lb.1.addrs
  cert : la.1.certifiedRecord = (a.seen hit).certifiedRecord
  kept : la.1.Kept
  covers : Covers signed t la.1.toAddrBookRecord b.record
  tied : Tied signed t la.2 lb.2

theorem Tied.load (h : Tied signed (unix now) a b) (sorter : ExpirySort) (caching hit keep : Bool) :
    LoadedBoth signed (unix now) a b hit (a.loadRecord sorter caching hit now keep false)
      (b.loadRecord sorter false hit now keep false) := by
  have hcov := h.seen_covers hit
  have hkept := h.seen_kept hit
  have hla := loadRecord_loaded sorter now caching hit keep false hkept.clean
  have hlb := load_plain sorter hit keep now h.plain
  have hnew : Covers signed (unix now)
      (a.loadRecord sorter caching hit now keep false).1.toAddrBookRecord b.record := by
    rw [hla.fst]
    exact hcov.clean_left
  refine ⟨hlb, ?_, ?_, hla.kept hkept, hnew, ?_⟩
  · rw [hla.fst, hlb.addrs]
    exact hcov.live
  · rw [hla.fst]
  · rw [hlb.slot]
    refine ⟨h.plain, h.full, ?_, ?_, ?_⟩
    · intro r hr
      rw [hla.eq_of_cached hr]
      exact hla.kept hkept
    · rw [record_of_stored hla.stored_eq]
      exact h.stored
    · intro r hr
      rw [hla.eq_of_cached hr]
      exact hnew

/-- Where both copies have addresses, or the one seen has no signed record to bring
back, the signed records are the same. -/
theorem LoadedBoth.cert_eq {la lb : AddrsRecord × Slot} (h : LoadedBoth signed t a b hit la lb)
    (hs : signed) (hrev : lb.1.addrs ≠ [] ∨ (a.seen hit).certifiedRecord = none) :
    la.1.certifiedRecord = lb.1.certifiedRecord := by
  rw [h.right.cert]
  rcases hrev with hne | hnone
  · rw [h.right.addrs] at hne
    exact h.covers.cert hs hne
  · rw [← h.cert] at hnone
    rcases h.covers.lost hs with hl | hl
    · rw [hnone, hl]
    · exact hl.symm

theorem Tied.hold (h : Tied signed t sa sb) (hkept : pa.Kept)
    (hcov : Covers signed t pa.toAddrBookRecord sb.record) (pb : AddrsRecord) :
    Tied signed t (sa.hold pa) (sb.hold pb) := by
  have hb : sb.hold pb = sb := by
    cases sb
    have hp := h.plain
    simp only at hp
    rw [hp]
    rfl
  have hc : ∀ r, (sa.hold pa).cached = some r → r = pa := by
    intro r hr
    obtain ⟨_, _, hr⟩ := map_eq_some_iff.mp hr
    exact hr.symm
  rw [hb]
  refine ⟨h.plain, h.full, ?_, h.stored, ?_⟩
  · intro r hr
    rw [hc r hr]
    exact hkept
  · intro r hr
    rw [hc r hr]
    exact hcov

/-! ## The calls on one peer -/

theorem settled_nil : settled sorter now [] = [] := rfl

/-- Setting addresses, unless it brings back a signed record that only the cache has. -/
theorem Tied.setAddrs (h : Tied signed (unix now) a b) (sorter : ExpirySort) (caching hit : Bool)
    (addrs : List Multiaddr) (ttl : Int) (mode : TtlWriteMode)
    (hrev : signed → addrs ≠ [] → removeExpired (a.seen hit).addrs (unix now) ≠ [] ∨
      (a.seen hit).certifiedRecord = none) :
    Tied signed (unix now) (a.setAddrs sorter caching hit now addrs ttl mode)
      (b.setAddrs sorter false hit now addrs ttl mode) := by
  have hl := h.load sorter caching hit true
  have hseen := (h.seen_covers hit).live
  unfold Slot.setAddrs
  split
  · exact h
  rename_i hne
  cases hA : a.loadRecord sorter caching hit now true false with
  | mk pa sa =>
  cases hB : b.loadRecord sorter false hit now true false with
  | mk pb sb =>
  rw [hA, hB] at hl
  have haddrs : pa.addrs = pb.addrs := hl.addrs
  dsimp only
  rw [clean_of_dirty rfl, clean_of_dirty rfl]
  apply tied_flushHeld hl.tied.plain
  · dsimp only
    rw [haddrs]
  · intro hnil
    rw [Bool.and_eq_true_iff, List.isEmpty_iff] at hnil
    rw [hnil.2, settled_nil]
  · intro hs _
    apply hl.cert_eq hs
    rcases hrev hs hne with hr | hr
    · left
      rw [hl.right.addrs, ← hseen]
      exact hr
    · exact .inr hr

theorem deleteInPlace_nil (addrs : List Multiaddr) : deleteInPlace [] addrs = [] := by
  unfold deleteInPlace
  split <;> rfl

/-- A changed list of addresses that both books flush: nothing comes of no addresses. -/
theorem LoadedBoth.flush
    (hl : LoadedBoth signed t a b hit (pa, sa) (pb, sb)) (sorter : ExpirySort) (now : Int)
    (hnone : pb.addrs = [] → l = []) :
    Tied signed t
      (sa.flushHeld { pa with addrs := settled sorter now l, dirty := true })
      (sb.flushHeld { pb with addrs := settled sorter now l, dirty := true }) := by
  have haddrs : pa.addrs = pb.addrs := hl.addrs
  refine tied_flushHeld hl.tied.plain rfl ?_ ?_
  · intro hnil
    rw [hnone (haddrs ▸ hl.kept.empty hnil), settled_nil]
  · intro hs hne
    apply hl.cert_eq hs
    left
    intro hnil
    rw [hnone hnil] at hne
    exact hne rfl

/-- The book without a cache may delete a record without addresses left. -/
theorem Tied.forget {b' : Slot} (h : Tied signed t a b) (hnil : removeExpired b.record.addrs t = [])
    (hc : b'.cached = none) (hs : b'.stored = none) : Tied signed t a b' := by
  have hrec : b'.record = {} := record_of_stored hs
  have hcov : ∀ v, Covers signed t v b.record → Covers signed t v b'.record := by
    intro v hv
    rw [hrec]
    exact ⟨hv.live.trans hnil, fun _ hne => absurd rfl hne, fun _ => .inl rfl⟩
  refine ⟨hc, ?_, h.kept, hcov _ h.stored, fun r hr => hcov _ (h.cached r hr)⟩
  intro r hr
  rw [hs] at hr
  cases hr

theorem Tied.deleteAddrs (h : Tied signed (unix now) a b) (sorter : ExpirySort) (caching hit : Bool)
    (addrs : List Multiaddr) :
    Tied signed (unix now) (a.deleteAddrs sorter caching hit now addrs)
      (b.deleteAddrs sorter false hit now addrs) := by
  have hl := h.load sorter caching hit false
  unfold Slot.deleteAddrs
  cases hA : a.loadRecord sorter caching hit now false false with
  | mk pa sa =>
  cases hB : b.loadRecord sorter false hit now false false with
  | mk pb sb =>
  rw [hA, hB] at hl
  have haddrs : pa.addrs = pb.addrs := hl.addrs
  have hsb : sb = b := hl.right.slot
  have hflush := hl.flush sorter now (l := deleteInPlace pb.addrs addrs)
    (fun hnil => by rw [hnil, deleteInPlace_nil])
  dsimp only
  rw [clean_of_dirty rfl, clean_of_dirty rfl, haddrs]
  split
  · rename_i hna
    have hnil : pb.addrs = [] := haddrs.symm.trans (hl.kept.empty hna)
    split
    · exact hl.tied
    -- no addresses on either side: the other book deletes what it may still have
    apply hl.tied.forget
    · rw [hsb, ← hl.right.addrs]
      exact hnil
    · rw [cached_flushHeld, hl.tied.plain]
      rfl
    · rw [stored_flushHeld]
      rw [hnil, deleteInPlace_nil]
      rfl
  · split
    · rename_i hnb
      have hnil : pb.addrs = [] := hl.right.kept.empty hnb
      apply hflush.forget
      · rw [record_of_stored (stored_flushHeld ..)]
        rw [hnil, deleteInPlace_nil]
        rfl
      · exact hl.tied.plain
      · rw [hsb]
        exact hl.right.nil hnb
    · exact hflush

theorem map_retime_of_none {oldTTL newTTL newExp : Int} (h : (l.any fun e => e.ttl = oldTTL) = false) :
    l.map (.retime oldTTL newTTL newExp) = l := by
  rw [map_eq_iff]
  intro i
  cases hi : l[i]? with
  | none => rfl
  | some e =>
    have hne := any_eq_false.mp h e (mem_of_getElem? hi)
    rw [decide_eq_true_iff] at hne
    simp [AddrEntry.retime, hne]

theorem Tied.updateAddrs (h : Tied signed (unix now) a b) (sorter : ExpirySort) (caching hit : Bool)
    (oldTTL newTTL : Int) :
    Tied signed (unix now) (a.updateAddrs sorter caching hit now oldTTL newTTL)
      (b.updateAddrs sorter false hit now oldTTL newTTL) := by
  have hl := h.load sorter caching hit true
  unfold Slot.updateAddrs
  cases hA : a.loadRecord sorter caching hit now true false with
  | mk pa sa =>
  cases hB : b.loadRecord sorter false hit now true false with
  | mk pb sb =>
  rw [hA, hB] at hl
  have haddrs : pa.addrs = pb.addrs := hl.addrs
  have hca : pa.dirty = false := hl.kept.clean
  have hcb : pb.dirty = false := hl.right.kept.clean
  dsimp only
  rw [haddrs, hca, hcb, Bool.false_or]
  cases hany : pb.addrs.any fun e => e.ttl = oldTTL with
  | true =>
    rw [clean_of_dirty rfl, clean_of_dirty rfl]
    apply hl.flush sorter now
    intro hnil
    rw [hnil]
    rfl
  | false =>
    -- no entry has the old TTL: the records are as they were loaded
    rw [map_retime_of_none hany]
    have hlive : removeExpired pb.addrs (unix now) = pb.addrs := by
      have hl' : pb.addrs = removeExpired b.record.addrs (unix now) := hl.right.addrs
      rw [hl', removeExpired_removeExpired (le_refl _)]
    have hstill : ∀ (c : Option CertifiedRecord) (n : Bool),
        clean sorter ⟨⟨pb.addrs, c⟩, false, n⟩ now = (false, ⟨⟨pb.addrs, c⟩, false, n⟩) :=
      fun _ _ => clean_still rfl hlive
    rw [hstill, hstill]
    apply hl.tied.hold
    · exact ⟨rfl, fun hnil => haddrs.symm.trans (hl.kept.empty hnil)⟩
    · have hsb : sb = b := hl.right.slot
      have hcov := hl.covers
      rw [hsb]
      rw [← haddrs]
      exact hcov

/-! ## What is read -/

theorem Tied.getPeerRecord (h : Tied True (unix now) a b) (sorter : ExpirySort) (caching hit : Bool) :
    (a.getPeerRecord sorter caching hit now).1 = (b.getPeerRecord sorter false hit now).1 ∧
      Tied True (unix now) (a.getPeerRecord sorter caching hit now).2
        (b.getPeerRecord sorter false hit now).2 := by
  have hl := h.load sorter caching hit true
  refine ⟨?_, hl.tied⟩
  unfold Slot.getPeerRecord
  dsimp only
  rw [hl.addrs]
  split
  · rfl
  · rename_i hne
    rw [hl.cert_eq trivial (.inl hne)]

theorem Tied.latestPeerRecordSeq (h : Tied True (unix now) a b) (sorter : ExpirySort)
    (caching hit : Bool) :
    (a.latestPeerRecordSeq sorter caching hit now).1 = (b.latestPeerRecordSeq sorter false hit now).1 ∧
      Tied True (unix now) (a.latestPeerRecordSeq sorter caching hit now).2
        (b.latestPeerRecordSeq sorter false hit now).2 := by
  have hl := h.load sorter caching hit true
  refine ⟨?_, hl.tied⟩
  unfold Slot.latestPeerRecordSeq
  dsimp only
  rw [hl.addrs]
  split
  · rfl
  · rename_i hne
    rw [hl.cert_eq trivial (.inl hne)]

/-- The signed record is written over whatever signed record was there. -/
theorem Tied.storeSignedPeerRecord (h : Tied False (unix now) a b) (sorter : ExpirySort)
    (caching hit : Bool) (env : Envelope) (rec : PeerRecord) :
    Tied True (unix now) (a.storeSignedPeerRecord sorter caching hit now env rec)
      (b.storeSignedPeerRecord sorter false hit now env rec) := by
  have hl := h.load sorter caching hit true
  apply tied_flushHeld hl.tied.plain
  · exact hl.addrs
  · exact hl.kept.empty
  · intro _ _
    rfl

theorem Tied.consumeRecord (h : Tied True (unix now) a b) (sorter : ExpirySort) (caching : Bool)
    (hits : Bool × Bool × Bool) (env : Envelope) (rec : PeerRecord) (ttl : Int) :
    (a.consumeRecord sorter caching hits now env rec ttl).1 =
        (b.consumeRecord sorter false hits now env rec ttl).1 ∧
      Tied True (unix now) (a.consumeRecord sorter caching hits now env rec ttl).2
        (b.consumeRecord sorter false hits now env rec ttl).2 := by
  obtain ⟨hseq, htied⟩ := h.latestPeerRecordSeq sorter caching hits.1
  unfold Slot.consumeRecord
  dsimp only
  rw [hseq]
  split
  · exact ⟨rfl, htied⟩
  · refine ⟨rfl, ?_⟩
    apply storeSignedPeerRecord
    exact htied.unsigned.setAddrs sorter caching hits.2.1 _ ttl .extend fun hf => hf.elim

/-! ## Cleaning the datastore -/

/-- `s'` has the stored record of `s`, which has nothing expired, or what a flush leaves
of it. -/
def Shrunk (t : Int) (s s' : Slot) : Prop :=
  s'.stored = s.stored ∧ removeExpired s.record.addrs t = s.record.addrs ∨
    s'.stored = Slot.put (removeExpired s.record.addrs t) s.record.certifiedRecord

variable {b' : Slot} {v : AddrBookRecord}

theorem Covers.shrunk (h : Covers signed t v b.record) (hb : Shrunk t b b') :
    Covers signed t v b'.record := by
  rcases hb with hb | hb
  · have hrec : b'.record = b.record := record_of_stored hb.1
    rw [hrec]
    exact h
  · rw [record_of_stored hb]
    exact h.put_right

theorem Shrunk.full (hb : Shrunk t b b') (hfull : ∀ r, b.stored = some r → r.addrs ≠ []) :
    ∀ r, b'.stored = some r → r.addrs ≠ [] := by
  intro r hr
  rcases hb with hb | hb
  · rw [hb.1] at hr
    exact hfull r hr
  · rw [hb] at hr
    unfold put at hr
    split at hr
    · cases hr
    · rename_i hne
      rw [← some.inj hr]
      exact hne

/-- A stored record with nothing left is gone. -/
theorem Shrunk.gone (hb : Shrunk t b b') (hfull : ∀ r, b.stored = some r → r.addrs ≠ [])
    (hnil : removeExpired b.record.addrs t = []) : b'.record = {} := by
  rcases hb with hb | hb
  · cases hst : b.stored with
    | none => exact record_of_stored (hb.1.trans hst)
    | some r =>
      have hrec : b.record = r := record_of_stored hst
      rw [hnil, hrec] at hb
      exact absurd hb.2.symm (hfull r hst)
  · rw [record_of_stored hb, hnil]
    rfl

/-- What a flush leaves of a covering copy covers what is left on the other side. -/
theorem Covers.put_left (h : Covers signed t v b.record) (hb : Shrunk t b b')
    (hfull : ∀ r, b.stored = some r → r.addrs ≠ []) :
    Covers signed t ((put (removeExpired v.addrs t) v.certifiedRecord).getD {}) b'.record := by
  by_cases hnil : removeExpired v.addrs t = []
  · rw [hnil, hb.gone hfull (h.live.symm.trans hnil)]
    exact .refl signed t _
  · rw [put, if_neg hnil]
    exact h.clean_left.shrunk hb

/-- Reading the addresses, in a book without a cache. -/
theorem Slot.addrs_plain (h : b.cached = none) :
    (b.addrs sorter false ps hit now).1 =
        reparse ps ((removeExpired b.record.addrs (unix now)).map (·.addr)) ∧
      (b.addrs sorter false ps hit now).2.cached = none ∧
      Shrunk (unix now) b (b.addrs sorter false ps hit now).2 := by
  obtain ⟨hkept, hrec⟩ := seen_plain h hit
  have hl := loadRecord_loaded sorter now false hit true true hkept.clean
  refine ⟨?_, cached_load_plain sorter hit true true now h, ?_⟩
  · unfold addrs
    dsimp only
    rw [hl.fst, hrec]
  · unfold Shrunk
    rw [← hrec]
    rcases hl.stored with hs | hs
    · exact .inl ⟨hs.1, hs.2 rfl⟩
    · exact .inr hs.2

theorem Tied.addrs (h : Tied signed (unix now) a b) (sorter : ExpirySort) (caching hit : Bool) :
    (a.addrs sorter caching ps hit now).1 = (b.addrs sorter false ps hit now).1 ∧
      Tied signed (unix now) (a.addrs sorter caching ps hit now).2 (b.addrs sorter false ps hit now).2 := by
  have hcov := h.seen_covers hit
  have hkept := h.seen_kept hit
  obtain ⟨hreply, hplain, hshrunk⟩ := addrs_plain h.plain
  have hla := loadRecord_loaded sorter now caching hit true true hkept.clean
  refine ⟨?_, hplain, hshrunk.full h.full, ?_, ?_, ?_⟩
  · rw [hreply, ← hcov.live]
    unfold Slot.addrs
    dsimp only
    rw [hla.fst]
  · intro r hr
    rw [hla.eq_of_cached hr]
    exact hla.kept hkept
  · rcases hla.stored with hs | hs
    · have hrec : (a.addrs sorter caching ps hit now).2.record = a.record :=
        record_of_stored hs.1
      rw [hrec]
      exact h.stored.shrunk hshrunk
    · have hrec := record_of_stored (s := (a.addrs sorter caching ps hit now).2) hs.2
      rw [hrec]
      exact hcov.put_left hshrunk h.full
  · intro r hr
    rw [hla.eq_of_cached hr, hla.fst]
    exact hcov.clean_left.shrunk hshrunk

/-- `purgeStore` leaves a peer alone, or flushes the stored record and drops the cached
one. -/
theorem Slot.purge_cases :
    s.purge sorter now = s ∧ removeExpired s.record.addrs (unix now) = s.record.addrs ∨
      s.purge sorter now =
        ⟨none, put (removeExpired s.record.addrs (unix now)) s.record.certifiedRecord⟩ := by
  unfold purge
  cases hst : s.stored with
  | none =>
    refine .inl ⟨rfl, ?_⟩
    rw [record_of_stored hst]
    rfl
  | some data =>
    rw [record_of_stored hst]
    dsimp only [getD_some]
    have hd : (({ data with } : AddrsRecord)).dirty = false := rfl
    obtain ⟨hrec, hsame⟩ := clean_of_clean sorter now hd
    cases hchg : ((({ data with } : AddrsRecord)).clean sorter now).1 with
    | true =>
      right
      rw [hrec]
      rfl
    | false =>
      left
      exact ⟨rfl, hsame.mp hchg⟩

theorem Tied.purge (h : Tied signed (unix now) a b) :
    Tied signed (unix now) (a.purge sorter now) (b.purge sorter now) := by
  have hshrunk : Shrunk (unix now) b (b.purge sorter now) := by
    rcases purge_cases with hb | hb
    · rw [hb.1]
      exact .inl ⟨rfl, hb.2⟩
    · rw [hb]
      exact .inr rfl
  have hplain : (b.purge sorter now).cached = none := by
    rcases purge_cases with hb | hb
    · rw [hb.1]
      exact h.plain
    · rw [hb]
  rcases purge_cases with ha | ha
  · rw [ha.1]
    exact ⟨hplain, hshrunk.full h.full, h.kept, h.stored.shrunk hshrunk,
      fun r hr => (h.cached r hr).shrunk hshrunk⟩
  · rw [ha]
    refine ⟨hplain, hshrunk.full h.full, fun r hr => (by cases hr), ?_, fun r hr => (by cases hr)⟩
    exact h.stored.put_left hshrunk h.full

/-! ## Whole calls and runs -/

namespace DsAddrBook

/-- A book with a cache and one without, and the time of their last call. -/
structure Pair where
  cached : DsAddrBook
  plain : DsAddrBook
  clock : Int

def Pair.init (start : Int) : Pair := ⟨{ caching := true }, { caching := false }, start⟩

def Pair.step {ε : Type} (sorter : ExpirySort) (ps : Multiaddr.Protocols ε) (s : Pair) (c : Call) : Pair :=
  ⟨(s.cached.exec sorter ps c).2, (s.plain.exec sorter ps c).2, c.now⟩

/-- The record that the call finds for the peer has an address that is not expired, or no
signed record. -/
def Unsigned (ab : DsAddrBook) (p : PeerID) (hit : Bool) (now : Int) : Prop :=
  removeExpired ((ab.slots p).seen hit).addrs (unix now) ≠ [] ∨
    ((ab.slots p).seen hit).certifiedRecord = none

/-- The calls that bring back no signed record from a record without addresses. -/
def Call.NoRevival (ab : DsAddrBook) : Call → Prop
  | .addAddrs now p args ttl hit => 0 < ttl → cleanAddrs args p ≠ [] → ab.Unsigned p hit now
  | .setAddrs now p args ttl hit => 0 < ttl → cleanAddrs args p ≠ [] → ab.Unsigned p hit now
  | _ => True

/-- Every peer's slots are tied. -/
def AllTied (now : Int) (ab ab' : DsAddrBook) : Prop :=
  ab'.caching = false ∧ ∀ p, Tied True (unix now) (ab.slots p) (ab'.slots p)

variable {ab ab' : DsAddrBook} {c : Call}

theorem unix_mono (h : t ≤ t') : unix t ≤ unix t' := by
  unfold unix
  omega

theorem AllTied.mono (h : AllTied t ab ab') (ht : t ≤ t') : AllTied t' ab ab' :=
  ⟨h.1, fun p => (h.2 p).mono (unix_mono ht)⟩

theorem AllTied.update (h : AllTied now ab ab') (p : PeerID) {s' : Slot}
    (hs : Tied True (unix now) s s') : AllTied now (ab.update p s) (ab'.update p s') := by
  refine ⟨h.1, ?_⟩
  intro q
  unfold DsAddrBook.update
  dsimp only
  by_cases hq : q = p
  · rw [hq, update_self, update_self]
    exact hs
  · rw [update_of_ne hq, update_of_ne hq]
    exact h.2 q

theorem AllTied.reply (h : AllTied c.now ab ab') :
    (ab.exec sorter ps c).1 = (ab'.exec sorter ps c).1 := by
  cases c with
  | consumePeerRecord now env ttl hits =>
    simp only [exec, consumePeerRecord]
    cases hrec : env.peerRecord with
    | error e => rfl
    | ok rec =>
      simp only [h.1]
      have hsame := ((h.2 rec.peerID).consumeRecord sorter ab.caching hits env rec ttl).1
      exact congrArg (fun x => Reply.consumed (.ok x)) hsame
  | addrs now p hit =>
    simp only [exec, h.1]
    exact congrArg Reply.addrs ((h.2 p).addrs sorter ab.caching hit).1
  | getPeerRecord now p hit =>
    simp only [exec, h.1]
    exact congrArg Reply.peerRecord ((h.2 p).getPeerRecord sorter ab.caching hit).1
  | addAddrs | setAddrs | updateAddrs | clearAddrs | purgeStore => rfl

theorem AllTied.exec (h : AllTied c.now ab ab') (hrev : c.NoRevival ab) :
    AllTied c.now (ab.exec sorter ps c).2 (ab'.exec sorter ps c).2 := by
  cases c with
  | addAddrs now p args ttl hit =>
    simp only [exec, addAddrs, h.1]
    split
    · exact h
    · rename_i httl
      apply h.update
      exact (h.2 p).setAddrs sorter _ hit _ ttl .extend fun _ hne => hrev (by omega) hne
  | setAddrs now p args ttl hit =>
    simp only [exec, setAddrs, h.1]
    split
    · apply h.update
      exact (h.2 p).deleteAddrs sorter _ hit _
    · rename_i httl
      apply h.update
      exact (h.2 p).setAddrs sorter _ hit _ ttl .override fun _ hne => hrev (by omega) hne
  | updateAddrs now p oldTTL newTTL hit =>
    simp only [exec, h.1]
    apply h.update
    exact (h.2 p).updateAddrs sorter _ hit oldTTL newTTL
  | consumePeerRecord now env ttl hits =>
    simp only [exec, consumePeerRecord]
    cases hrec : env.peerRecord with
    | error e => exact h
    | ok rec =>
      simp only [h.1]
      apply h.update
      exact ((h.2 rec.peerID).consumeRecord sorter _ hits env rec ttl).2
  | clearAddrs now p =>
    apply h.update
    exact tied_empty
  | addrs now p hit =>
    simp only [exec, h.1]
    apply h.update
    exact ((h.2 p).addrs sorter _ hit).2
  | getPeerRecord now p hit =>
    simp only [exec, h.1]
    apply h.update
    exact ((h.2 p).getPeerRecord sorter _ hit).2
  | purgeStore now => exact ⟨h.1, fun p => (h.2 p).purge⟩

theorem allTied_reach (start : Int) {s : Pair}
    (h : Reach (.step sorter ps) (fun s c => s.clock ≤ c.now ∧ c.NoRevival s.cached)
      (.init start) s) : AllTied s.clock s.cached s.plain := by
  refine h.invariant (I := fun s => AllTied s.clock s.cached s.plain) ?_ ?_
  · exact ⟨rfl, fun p => tied_empty⟩
  · intro s c _ hok hs
    exact (hs.mono hok.1).exec hok.2

/-- In every run whose calls bring no signed record back, the next call has the reply
that a book without a cache gives. -/
theorem cache_transparent {ε : Type} (sorter : ExpirySort) (ps : Multiaddr.Protocols ε)
    (start : Int) {s : Pair}
    (h : Reach (Pair.step sorter ps) (fun s c => s.clock ≤ c.now ∧ c.NoRevival s.cached)
      (Pair.init start) s) (c : Call) (hc : s.clock ≤ c.now) :
    (s.cached.exec sorter ps c).1 = (s.plain.exec sorter ps c).1 :=
  ((allTied_reach start h).mono hc).reply

/-- A record of the peer `[1]` with one address. -/
def firstRecord : Envelope := ⟨some [1], some (.peerRecord ⟨[1], [some [⟨6, [80]⟩]], 1⟩)⟩

/-- The record is taken, its address is read before it expires, and another is added. -/
def kept : Pair :=
  (((Pair.init 0).step .stable portTable (.consumePeerRecord 0 firstRecord 10000000000 (true, true, true))).step
    .stable portTable (.addrs 5000000000 [1] true)).step
    .stable portTable (.addAddrs 7000000000 [1] [some [⟨6, [81]⟩]] 10000000000 false)

theorem kept_reached : Reach (.step .stable portTable)
    (fun s c => s.clock ≤ c.now ∧ c.NoRevival s.cached) (.init 0) kept := by
  refine .step _ (.step _ (.step _ .init ?_) ?_) ?_
  · exact ⟨by decide, trivial⟩
  · exact ⟨by decide, trivial⟩
  · exact ⟨by decide, fun _ _ => .inl (by decide +kernel)⟩

theorem cache_transparent_kept :
    (kept.cached.exec .stable portTable (.getPeerRecord 8000000000 [1] true)).1 =
      (kept.plain.exec .stable portTable (.getPeerRecord 8000000000 [1] true)).1 :=
  cache_transparent .stable portTable 0 kept_reached _ (by decide)

/-- The record is taken, its address is read after it has expired, and another is added. -/
def revived : Pair :=
  (((Pair.init 0).step .stable portTable (.consumePeerRecord 0 firstRecord 10000000000 (true, true, true))).step
    .stable portTable (.addrs 10000000000 [1] true)).step
    .stable portTable (.addAddrs 10000000000 [1] [some [⟨6, [81]⟩]] 10000000000 true)

/-- The cached record has kept its envelope, and hands it out again. -/
theorem cached_record_revived :
    Reach (Pair.step .stable portTable) (fun s c => s.clock ≤ c.now) (Pair.init 0) revived ∧
      (revived.cached.exec .stable portTable (.getPeerRecord 10000000000 [1] true)).1 =
        .peerRecord (some firstRecord) ∧
      (revived.plain.exec .stable portTable (.getPeerRecord 10000000000 [1] true)).1 = .peerRecord none := by
  refine ⟨.step _ (.step _ (.step _ .init ?_) ?_) ?_, ?_, ?_⟩
  all_goals decide +kernel

end DsAddrBook

end Dep2p.Peerstore
