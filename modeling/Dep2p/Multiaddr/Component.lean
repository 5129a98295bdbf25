import Dep2p.Multiaddr.Codec

/- Single components (`component.go`) and how they are read from bytes (`codec.go`).

   `readComponent` makes the checks of `validateBytes` that concern the frame of a component:
   the code is known and there are as many bytes as the size says. It does not ask the
   transcoder, nor does it ask that a path is the last component. What it reads is an `Item`,
   a known code with a value of the right size, and bytes are valid if they are those of items
   with valid values, of which only the last one may be a path.

   Correspondence (Go ↔ Lean):
     `Component`, `RawValue`, `Value`          ↔ `Component`, `rawValue`, `value`
     `readComponent`                           ↔ `readComponent`

   What is proved:
     `readComponent_item`, `readComponent_ok` — the items are what is read, whatever follows.
     `validateBytes_iff` — the valid bytes are those of chains of valid items. -/
namespace Dep2p.Multiaddr.Wire

open Lib Varint List

variable {ε : Type}

abbrev Run (ε α : Type) := Except (Fault (CodecErr ε)) α

structure Component (ε : Type) where
  bytes : Bytes
  protocol : Protocol ε
  offset : Nat

namespace Component

variable (c : Component ε)

def rawValue : Bytes := c.bytes.drop c.offset

/-- A value that the transcoder does not convert panics. -/
def value : Run ε Bytes :=
  match c.protocol.transcoder with
  | none => .ok []
  | some t =>
    match t.bytesToString c.rawValue with
    | .error _ => .error .panicked
    | .ok value => .ok value

end Component

/-! ## Reading components -/

/-- The length in front of a value, if the protocol has no fixed size. -/
def lengthBytes (p : Protocol ε) (length : Nat) : Bytes :=
  if p.size < 0 then putUvarint length else []

/-- What stands before a value of this length. -/
def head (p : Protocol ε) (length : Nat) : Bytes := p.vcode ++ lengthBytes p length

/-- The component in front of `b`, and the number of its bytes. -/
def readComponent (ps : Protocols ε) (b : Bytes) : Except (CodecErr ε) (Nat × Component ε) :=
  match readVarintCode b with
  | .error err => .error (.varint err)
  | .ok (code, n) =>
    let p := ps.protocolWithCode code
    if p.code = 0 then .error (.noProtocol code)
    else if p.size = 0 then .ok (n, ⟨b.take n, p, n⟩)
    else
      match sizeForAddr p (b.drop n) with
      | .error err => .error (.varint err)
      | .ok (m, size) =>
        let offset := n + m
        if (b.drop offset).length < size then .error (.invalidSize (b.drop offset).length)
        else .ok (offset + size, ⟨b.take (offset + size), p, offset⟩)

/-- A value has as many bytes as its protocol says, and its length can be written. -/
def Sized (p : Protocol ε) (value : Bytes) : Prop :=
  (p.size = 0 → value = []) ∧ (0 < p.size → value.length = p.size.toNat / 8) ∧
    (p.size < 0 → value.length ≤ maxInt32)

/-- A known code with a value of the right size. -/
structure Item (ps : Protocols ε) where
  code : Nat
  value : Bytes
  known : (ps.protocolWithCode code).code ≠ 0
  small : code ≤ maxInt32
  sized : Sized (ps.protocolWithCode code) value

namespace Item

variable {ps : Protocols ε} (i : Item ps)

abbrev protocol : Protocol ε := ps.protocolWithCode i.code

def lead : Bytes := putUvarint i.code ++ lengthBytes i.protocol i.value.length

def bytes : Bytes := i.lead ++ i.value

def component : Component ε := ⟨i.bytes, i.protocol, i.lead.length⟩

theorem lead_ne_nil : i.lead ≠ [] := by
  intro h
  exact putUvarint_ne_nil _ (append_eq_nil_iff.mp h).1

theorem bytes_ne_nil : i.bytes ≠ [] := by
  intro h
  exact i.lead_ne_nil (append_eq_nil_iff.mp h).1

theorem bytes_length_pos : 0 < i.bytes.length := length_pos_iff.mpr i.bytes_ne_nil

@[simp] theorem component_bytes : i.component.bytes = i.bytes := rfl

@[simp] theorem component_protocol : i.component.protocol = i.protocol := rfl

@[simp] theorem component_rawValue : i.component.rawValue = i.value := by
  exact drop_left

/-- Items with the same code and value are the same. -/
theorem ext_code_value {i j : Item ps} (hcode : i.code = j.code) (hvalue : i.value = j.value) :
    i = j := by
  cases i
  cases j
  subst hcode
  subst hvalue
  rfl

end Item

theorem maxInt32_lt : maxInt32 < 2 ^ 63 := by decide

variable {n : Nat} {ys : Bytes}

theorem readVarintCode_put (hn : n ≤ maxInt32) :
    readVarintCode (putUvarint n ++ ys) = .ok (n, (putUvarint n).length) := by
  unfold readVarintCode
  rw [fromUvarint_put (hn.trans_lt maxInt32_lt) ys, ok_bind]
  dsimp only
  rw [if_neg (not_lt.mpr hn)]

section

variable {ps : Protocols ε} {p : Protocol ε}

/-- What `sizeForAddr` finds where the value of an item starts. -/
theorem sizeForAddr_sized {value : Bytes} (hsized : Sized p value)
    (hsize : p.size ≠ 0) :
    sizeForAddr p (lengthBytes p value.length ++ ys) =
      .ok ((lengthBytes p value.length).length, value.length) := by
  obtain ⟨-, hfixed, hlong⟩ := hsized
  unfold sizeForAddr lengthBytes
  by_cases hneg : p.size < 0
  · rw [if_neg (by omega), if_neg hsize, if_pos hneg, readVarintCode_put (hlong hneg), ok_bind]
  · have hpos : 0 < p.size := by omega
    rw [if_pos hpos, if_neg hneg, hfixed hpos]
    rfl

/-- An item is read to its end, whatever follows. -/
theorem readComponent_item (i : Item ps) (ys : Bytes) :
    readComponent ps (i.bytes ++ ys) = .ok (i.bytes.length, i.component) := by
  have hsplit : i.bytes ++ ys =
      putUvarint i.code ++ (lengthBytes i.protocol i.value.length ++ (i.value ++ ys)) := by
    simp [Item.bytes, Item.lead]
  have hrest : (i.bytes ++ ys).drop i.lead.length = i.value ++ ys := by
    rw [Item.bytes, append_assoc, drop_left]
  unfold readComponent
  rw [hsplit, readVarintCode_put i.small, ← hsplit]
  dsimp only
  rw [if_neg i.known]
  by_cases hsize : i.protocol.size = 0
  · have hbytes : i.bytes = putUvarint i.code ∧ i.lead = putUvarint i.code := by
      rw [Item.bytes, i.sized.1 hsize, Item.lead, lengthBytes, if_neg (by omega)]
      simp
    rw [if_pos hsize, ← hbytes.1, take_left, Item.component, hbytes.2, hbytes.1]
  · have hlen : i.bytes.length = i.lead.length + i.value.length := length_append
    rw [if_neg hsize, hsplit, drop_left, sizeForAddr_sized i.sized hsize, ← hsplit]
    dsimp only
    rw [← length_append]
    change (if ((i.bytes ++ ys).drop i.lead.length).length < i.value.length then _ else
      Except.ok (i.lead.length + i.value.length,
        Component.mk ((i.bytes ++ ys).take (i.lead.length + i.value.length)) i.protocol
          i.lead.length)) = _
    rw [hrest, if_neg (by rw [length_append]; omega), ← hlen, take_left]
    rfl

variable {b : Bytes} {m size code : Nat}

theorem sizeForAddr_ok (hsize : p.size ≠ 0)
    (h : sizeForAddr p b = .ok (m, size)) :
    ∃ ys, b = lengthBytes p size ++ ys ∧ m = (lengthBytes p size).length ∧
      (0 < p.size → size = p.size.toNat / 8) ∧ (p.size < 0 → size ≤ maxInt32) := by
  unfold sizeForAddr at h
  unfold lengthBytes
  by_cases hpos : 0 < p.size
  · rw [if_pos hpos] at h
    cases h
    rw [if_neg (by omega)]
    exact ⟨b, rfl, rfl, fun _ => rfl, fun hneg => by omega⟩
  · rw [if_neg hpos, if_neg hsize] at h
    obtain ⟨⟨size', m'⟩, hread, h⟩ := bind_eq_ok.mp h
    cases h
    obtain ⟨ys, hb, hm, hle⟩ := readVarintCode_ok hread
    rw [if_pos (by omega)]
    exact ⟨ys, hb, hm, fun hpos' => absurd hpos' hpos, fun _ => hle⟩

/-- The frame that `readComponent` and `validateBytes` look for: a known code, the size, and
that many bytes. -/
theorem item_of_frame
    (hknown : (ps.protocolWithCode code).code ≠ 0) (hsmall : code ≤ maxInt32)
    (hsize : (ps.protocolWithCode code).size ≠ 0)
    (hfor : sizeForAddr (ps.protocolWithCode code) ys = .ok (m, size))
    (hlen : size ≤ (ys.drop m).length) :
    ∃ i : Item ps, i.code = code ∧ i.value = (ys.drop m).take size ∧
      putUvarint code ++ ys = i.bytes ++ (ys.drop m).drop size := by
  obtain ⟨zs, rfl, rfl, hfixed, hlong⟩ := sizeForAddr_ok hsize hfor
  rw [drop_left] at hlen ⊢
  have htake : (zs.take size).length = size := length_take_of_le hlen
  refine ⟨⟨code, zs.take size, hknown, hsmall, ?_, ?_, ?_⟩, rfl, rfl, ?_⟩
  · exact fun h => absurd h hsize
  · rw [htake]
    exact hfixed
  · rw [htake]
    exact hlong
  · simp [Item.bytes, Item.lead, htake]

theorem item_of_code (hknown : (ps.protocolWithCode code).code ≠ 0)
    (hsmall : code ≤ maxInt32) (hsize : (ps.protocolWithCode code).size = 0) :
    ∃ i : Item ps, i.code = code ∧ i.bytes = putUvarint code := by
  refine ⟨⟨code, [], hknown, hsmall, fun _ => rfl, fun hpos => ?_, fun _ => Nat.zero_le _⟩, rfl, ?_⟩
  · omega
  · simp [Item.bytes, Item.lead, lengthBytes, hsize]

variable {c : Component ε}

/-- Only items are read. -/
theorem readComponent_ok (h : readComponent ps b = .ok (n, c)) :
    ∃ (i : Item ps) (ys : Bytes), b = i.bytes ++ ys ∧ n = i.bytes.length ∧ c = i.component := by
  have hitem : ∃ (i : Item ps) (ys : Bytes), b = i.bytes ++ ys := by
    unfold readComponent at h
    split at h
    · cases h
    rename_i code m hcode
    obtain ⟨ys, rfl, rfl, hsmall⟩ := readVarintCode_ok hcode
    dsimp only at h
    split at h
    · cases h
    rename_i hknown
    split at h
    · rename_i hsize
      obtain ⟨i, -, hi⟩ := item_of_code hknown hsmall hsize
      exact ⟨i, ys, by rw [hi]⟩
    · rename_i hsize
      rw [drop_left] at h
      split at h
      · cases h
      rename_i m size hfor
      split at h
      · cases h
      rename_i hlen
      rw [← drop_drop, drop_left, not_lt] at hlen
      obtain ⟨i, -, -, hi⟩ := item_of_frame hknown hsmall hsize hfor hlen
      exact ⟨i, _, hi⟩
  obtain ⟨i, ys, rfl⟩ := hitem
  rw [readComponent_item] at h
  cases h
  exact ⟨i, ys, rfl, rfl, rfl⟩

/-- A component takes at least one byte. -/
theorem readComponent_shorter (h : readComponent ps b = .ok (n, c)) :
    (b.drop n).length < b.length := by
  obtain ⟨i, ys, rfl, rfl, -⟩ := readComponent_ok h
  have hpos := i.bytes_length_pos
  rw [drop_left, length_append]
  omega

/-! ## Valid bytes -/

namespace Item

/-- The transcoder accepts the value. -/
def Valid (i : Item ps) : Prop :=
  i.protocol.size ≠ 0 →
    ∃ t, i.protocol.transcoder = some t ∧ t.validateBytes i.value = .ok ()

/-- Nothing may follow. -/
def Ends (i : Item ps) : Prop := i.protocol.size ≠ 0 ∧ i.protocol.path = true

end Item

/-- The bytes of some items. -/
def concat (is : List (Item ps)) : Bytes := is.flatMap Item.bytes

@[simp] theorem concat_nil : concat ([] : List (Item ps)) = [] := rfl

@[simp] theorem concat_cons (i : Item ps) (is : List (Item ps)) :
    concat (i :: is) = i.bytes ++ concat is := flatMap_cons

@[simp] theorem concat_append (is js : List (Item ps)) :
    concat (is ++ js) = concat is ++ concat js := flatMap_append

variable {is : List (Item ps)}

theorem concat_eq_nil : concat is = [] ↔ is = [] := by
  cases is with
  | nil => simp
  | cons i is => simp [i.bytes_ne_nil]

/-- Valid items, of which only the last one ends the address. -/
def Chain : List (Item ps) → Prop
  | [] => True
  | i :: is => i.Valid ∧ (i.Ends → is = []) ∧ Chain is

variable {rest : Bytes}

/-- A valid item is accepted if it may stand before the rest. -/
theorem validateComponent_item {i : Item ps} (hvalid : i.Valid)
    (hends : i.Ends → rest = []) : validateComponent ps (i.bytes ++ rest) = .ok rest := by
  have hsplit : i.bytes ++ rest =
      putUvarint i.code ++ (lengthBytes i.protocol i.value.length ++ (i.value ++ rest)) := by
    simp [Item.bytes, Item.lead]
  unfold validateComponent
  rw [hsplit, readVarintCode_put i.small]
  dsimp only
  rw [if_neg i.known, drop_left]
  by_cases hsize : i.protocol.size = 0
  · rw [if_pos hsize, i.sized.1 hsize, lengthBytes, if_neg (by omega)]
    rfl
  · obtain ⟨t, ht, hval⟩ := hvalid hsize
    have hpath : ¬ (i.protocol.path = true ∧ (i.value ++ rest).length ≠ i.value.length) := by
      rintro ⟨hpath, hlen⟩
      rw [hends ⟨hsize, hpath⟩, append_nil] at hlen
      exact hlen rfl
    rw [if_neg hsize, sizeForAddr_sized i.sized hsize]
    dsimp only
    rw [drop_left, if_neg (by rw [length_append]; omega), if_neg hpath, ht]
    dsimp only
    rw [take_left, hval, drop_left]

/-- The body of the loop of `validateBytes` takes one valid item. -/
theorem validateComponent_iff :
    validateComponent ps b = .ok rest ↔
      ∃ i : Item ps, b = i.bytes ++ rest ∧ i.Valid ∧ (i.Ends → rest = []) := by
  constructor
  · intro h
    unfold validateComponent at h
    split at h
    · cases h
    rename_i code m hcode
    obtain ⟨ys, rfl, rfl, hsmall⟩ := readVarintCode_ok hcode
    dsimp only at h
    split at h
    · cases h
    rename_i hknown
    rw [drop_left] at h
    split at h
    · rename_i hsize
      cases h
      obtain ⟨i, rfl, hi⟩ := item_of_code hknown hsmall hsize
      exact ⟨i, by rw [hi], fun hne => absurd hsize hne, fun hends => absurd hsize hends.1⟩
    · rename_i hsize
      split at h
      · cases h
      rename_i m size hfor
      split at h
      · cases h
      rename_i hlen
      obtain ⟨i, rfl, hvalue, hi⟩ :=
        item_of_frame hknown hsmall hsize hfor (not_lt.mp hlen)
      split at h
      · cases h
      rename_i hpath
      split at h
      · cases h
      rename_i t ht
      split at h
      · cases h
      rename_i hval
      cases h
      refine ⟨i, hi, fun _ => ⟨t, ht, by rw [hvalue]; exact hval⟩, fun hends => ?_⟩
      have hall : (ys.drop m).length = size :=
        not_not.mp fun hne => hpath ⟨hends.2, hne⟩
      exact drop_eq_nil_of_le hall.le
  · rintro ⟨i, rfl, hvalid, hends⟩
    exact validateComponent_item hvalid hends

/-- The loop takes a chain to its end. The induction is on the length of the bytes, since
every component is shorter than what it is read from. -/
theorem validateComponents_iff :
    validateComponents ps b = .ok () ↔ ∃ is : List (Item ps), b = concat is ∧ Chain is := by
  constructor
  · intro h
    induction hn : b.length using Nat.strongRecOn generalizing b with
    | ind n ih =>
      by_cases hb : b = []
      · subst hb
        exact ⟨[], rfl, trivial⟩
      · cases hc : validateComponent ps b with
        | error err =>
          rw [validateComponents, if_neg (by simpa using hb)] at h
          split at h
          · cases h
          · rename_i rest hrest
            rw [hc] at hrest
            cases hrest
        | ok rest =>
          rw [validateComponents_step hc] at h
          obtain ⟨is, rfl, hchain⟩ := ih _ (hn ▸ validateComponent_lt hc) h rfl
          obtain ⟨i, rfl, hvalid, hends⟩ := validateComponent_iff.mp hc
          exact ⟨i :: is, rfl, hvalid, fun he => concat_eq_nil.mp (hends he), hchain⟩
  · rintro ⟨is, rfl, hchain⟩
    induction is with
    | nil => exact validateComponents_nil ps
    | cons i is ih =>
      obtain ⟨hvalid, hends, hchain⟩ := hchain
      have hstep : validateComponent ps (i.bytes ++ concat is) = .ok (concat is) :=
        validateComponent_item hvalid fun he => concat_eq_nil.mpr (hends he)
      rw [concat_cons, validateComponents_step hstep]
      exact ih hchain

theorem validateBytes_iff :
    validateBytes ps b = .ok () ↔
      ∃ is : List (Item ps), is ≠ [] ∧ b = concat is ∧ Chain is := by
  unfold validateBytes
  split
  · rename_i hb
    constructor
    · intro h
      cases h
    · rintro ⟨is, hne, rfl, -⟩
      exact absurd (concat_eq_nil.mp (isEmpty_iff.mp hb)) hne
  · rename_i hb
    rw [validateComponents_iff]
    constructor
    · rintro ⟨is, rfl, hchain⟩
      refine ⟨is, ?_, rfl, hchain⟩
      rintro rfl
      exact hb rfl
    · rintro ⟨is, -, hb, hchain⟩
      exact ⟨is, hb, hchain⟩

theorem Chain.valid (h : Chain is) : ∀ i ∈ is, i.Valid := by
  induction is with
  | nil => exact fun i hi => by cases hi
  | cons i is ih => exact forall_mem_cons.mpr ⟨h.1, ih h.2.2⟩

end

/-- A table with one protocol, of two bytes. -/
def portTable : Protocols Unit where
  byName _ := none
  byCode c :=
    if c = P_TCP then
      some { name := [116, 99, 112], code := P_TCP, vcode := [6], size := 16,
             transcoder := some ⟨.ok, .ok, fun _ => .ok ()⟩ }
    else none

end Dep2p.Multiaddr.Wire
