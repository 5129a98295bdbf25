import Dep2p.Lib.Occurs
import Dep2p.Multiaddr.Views

/- `Encapsulate` and `Decapsulate` (`multiaddr.go`, `component.go`).

   The first concatenates bytes, the second splits both addresses and looks for the parts of
   the one among the parts of the other. The two agree because the items of a concatenation
   are the items of its parts: `readComponent` reads an item whatever follows, also one that
   `validateBytes` would only accept at the end.

   What is proved:
     `matchLoop_iff`, `lastMatch_some`, `lastMatch_none` — the nested loop finds the last place.
     `decapsulate_exact` — what `Decapsulate` returns, and that it undoes `Encapsulate`. -/
namespace Dep2p.Multiaddr.Wire

open Lib Varint List Addr

variable {ε : Type}

def encapsulate (m : Addr ε) (o : Option (Addr ε)) : Addr ε :=
  match m, o with
  | .multiaddr b, none => .multiaddr b
  | .component c, none => .multiaddr c.bytes
  | m, some o => .multiaddr (m.bytes ++ o.bytes)

@[simp] theorem encapsulate_some (m o : Addr ε) :
    encapsulate m (some o) = .multiaddr (m.bytes ++ o.bytes) := by
  cases m <;> rfl

/-- The inner loop compares the parts from `k` on; `found` is the flag from the part before. -/
def matchLoop (left : List (Addr ε)) : Nat → List (Addr ε) → Bool → Bool
  | _, [], found => found
  | k, rightC :: right, _ =>
    match left[k]? with
    | none => false
    | some leftC => if rightC.equal leftC then matchLoop left (k + 1) right true else false

/-- `lastIndex` after the outer loop; -1 is `none`. -/
def lastMatch (left right : List (Addr ε)) : Option Nat :=
  lastSuch (fun i => matchLoop left i right false) left.length

def decapsulate (ps : Protocols ε) (m : Addr ε) (right : Option (Addr ε)) :
    Run ε (Option (Addr ε)) :=
  match m, right with
  | .component c, none => .ok (some (.component c))
  | .component c, some right =>
    if (Addr.component c).equal right then .ok none else .ok (some (.component c))
  | .multiaddr b, none => .ok (some (.multiaddr b))
  | .multiaddr b, some right => do
    let leftParts ← split ps (some (.multiaddr b))
    let rightParts ← split ps (some right)
    match lastMatch leftParts rightParts with
    | none => .ok (some (.multiaddr b))
    | some 0 => .ok none
    | some lastIndex => .ok (join ((leftParts.take lastIndex).map some))

/-! ## The search -/

/-- With the flag set, the inner loop says whether the parts stand there. -/
theorem matchLoop_iff (left right : List (Addr ε)) (k : Nat) :
    matchLoop left k right true = true ↔
      OccursAt (left.map bytes) (right.map bytes) k := by
  unfold OccursAt
  induction right generalizing k with
  | nil => exact ⟨fun _ => nil_prefix, fun _ => rfl⟩
  | cons r right ih =>
    rw [matchLoop, map_cons]
    cases hk : left[k]? with
    | none =>
      rw [drop_eq_nil_of_le (by simpa using hk)]
      simp
    | some l =>
      obtain ⟨hlt, hl⟩ := List.getElem?_eq_some_iff.mp hk
      have hdrop : (left.map bytes).drop k = l.bytes :: (left.map bytes).drop (k + 1) := by
        rw [drop_eq_getElem_cons (by simpa using hlt), getElem_map, hl]
      rw [hdrop, cons_prefix_cons, ← ih (k + 1)]
      by_cases heq : r.bytes = l.bytes <;> simp [equal]

/-- The flag only matters if there is nothing to look for. -/
theorem matchLoop_flag (left : List (Addr ε)) {right : List (Addr ε)} (hne : right ≠ [])
    (k : Nat) (found : Bool) : matchLoop left k right found = matchLoop left k right true := by
  cases right with
  | nil => exact absurd rfl hne
  | cons r right => rfl

section

variable {left right : List (Addr ε)} {i : Nat}

theorem matchLoop_occurs (hne : right ≠ []) :
    matchLoop left i right false = true ↔
      OccursAt (left.map bytes) (right.map bytes) i := by
  rw [matchLoop_flag left hne, matchLoop_iff]

theorem occurs_lt (hne : right ≠ [])
    (h : OccursAt (left.map bytes) (right.map bytes) i) : i < left.length := by
  have hbound := h.bound (by simpa using hne)
  have hpos := length_pos_iff.mpr hne
  simp only [length_map] at hbound
  omega

theorem lastMatch_some (hne : right ≠ []) :
    lastMatch left right = some i ↔ LastAt (left.map bytes) (right.map bytes) i := by
  unfold lastMatch LastAt
  rw [lastSuch_eq_some]
  simp only [matchLoop_occurs hne]
  constructor
  · rintro ⟨-, hi, hmax⟩
    exact ⟨hi, fun j hj => hmax j (occurs_lt hne hj) hj⟩
  · rintro ⟨hi, hmax⟩
    exact ⟨occurs_lt hne hi, hi, fun j _ hj => hmax j hj⟩

theorem lastMatch_none (hne : right ≠ []) :
    lastMatch left right = none ↔
      ∀ i, ¬ OccursAt (left.map bytes) (right.map bytes) i := by
  unfold lastMatch
  rw [lastSuch_eq_none]
  simp only [← Bool.not_eq_true, matchLoop_occurs hne]
  exact ⟨fun h i hi => h i (occurs_lt hne hi) hi, fun h i _ => h i⟩

end

/-! ## Valid addresses -/

section

variable {ps : Protocols ε} {i : Item ps}

theorem Item.bytes_append_inj {j : Item ps} {xs ys : Bytes}
    (h : i.bytes ++ xs = j.bytes ++ ys) : i = j ∧ xs = ys := by
  have hread := readComponent_item i xs
  rw [h, readComponent_item j ys] at hread
  injection hread with hread
  injection hread with hlen hcomp
  obtain ⟨hbytes, hrest⟩ := append_inj h hlen.symm
  refine ⟨ext_code_value ?_ ?_, hrest⟩
  · have hb : i.lead ++ i.value = j.lead ++ j.value := hbytes
    rw [lead, lead, append_assoc, append_assoc] at hb
    exact (putUvarint_append_inj hb).1
  · rw [← i.component_rawValue, ← j.component_rawValue, hcomp]

variable {js : List (Item ps)}

/-- Bytes are those of one list of items only. -/
theorem concat_inj {is : List (Item ps)} (h : concat is = concat js) : is = js := by
  induction is generalizing js with
  | nil => exact (concat_eq_nil.mp h.symm).symm
  | cons i is ih =>
    cases js with
    | nil => exact absurd (concat_eq_nil.mp h) (cons_ne_nil i is)
    | cons j js =>
      obtain ⟨rfl, hrest⟩ := Item.bytes_append_inj h
      rw [ih hrest]

/-- The address is one that the parsers make: its bytes are valid, and a component is as it
was read. -/
def Addr.Valid (ps : Protocols ε) (m : Addr ε) : Prop :=
  validateBytes ps m.bytes = .ok () ∧
    ∀ c, m = .component c → ∃ n, readComponent ps c.bytes = .ok (n, c)

/-- The items of a valid address, and what `Split` makes of it. -/
theorem Addr.Valid.items {m : Addr ε} (h : m.Valid ps) :
    ∃ is : List (Item ps), is ≠ [] ∧ Chain is ∧ m.bytes = concat is ∧
      split ps (some m) = .ok ((components is).map component) ∧
      ∀ c, m = .component c → ∃ i, is = [i] ∧ c = i.component := by
  obtain ⟨is, hne, hbytes, hchain⟩ := validateBytes_iff.mp h.1
  refine ⟨is, hne, hchain, hbytes, ?_⟩
  cases m with
  | multiaddr b =>
    subst hbytes
    exact ⟨split_concat, fun c hc => by cases hc⟩
  | component c =>
    obtain ⟨n, hread⟩ := h.2 c rfl
    obtain ⟨i, ys, hsplit, -, rfl⟩ := readComponent_ok hread
    have his : is = [i] := by
      apply concat_inj
      rw [← hbytes, concat_cons, concat_nil, append_nil]
      rfl
    subst his
    exact ⟨rfl, fun c hc => ⟨i, rfl, by cases hc; rfl⟩⟩

variable {right : Addr ε}

theorem decapsulate_items (is : List (Item ps)) (hjs : js ≠ [])
    (hright : split ps (some right) = .ok ((components js).map component)) :
    (∀ i, LastAt (is.map Item.bytes) (js.map Item.bytes) i →
      ∃ r, decapsulate ps (.multiaddr (concat is)) (some right) = .ok r ∧
        (r = none ↔ i = 0) ∧ bytesOf r = concat (is.take i)) ∧
    ((∀ i, ¬ OccursAt (is.map Item.bytes) (js.map Item.bytes) i) →
      decapsulate ps (.multiaddr (concat is)) (some right) = .ok (some (.multiaddr (concat is)))) := by
  have hne : (components js).map component ≠ [] := by
    simpa [components] using hjs
  have hrun : decapsulate ps (.multiaddr (concat is)) (some right) =
      match lastMatch ((components is).map component) ((components js).map component) with
      | none => .ok (some (.multiaddr (concat is)))
      | some 0 => .ok none
      | some lastIndex =>
        .ok (join ((((components is).map component).take lastIndex).map some)) := by
    unfold decapsulate
    dsimp only
    rw [split_concat, ok_bind, hright, ok_bind]
  rw [hrun]
  constructor
  · intro i hlast
    have hmatch : lastMatch ((components is).map component)
        ((components js).map component) = some i := by
      rw [lastMatch_some hne, map_bytes_components, map_bytes_components]
      exact hlast
    rw [hmatch]
    cases i with
    | zero => exact ⟨none, rfl, by simp, rfl⟩
    | succ i =>
      have hlt : i + 1 < is.length := by
        have hbound := hlast.1.bound (by simpa using hjs)
        have hpos := length_pos_iff.mpr hjs
        simp only [length_map] at hbound
        omega
      have hparts : ((((components is).map component).take (i + 1)).map bytes).flatten =
          concat (is.take (i + 1)) := by
        rw [map_take, map_bytes_components, ← map_take, flatten_map_bytes]
      have hfull : concat (is.take (i + 1)) ≠ [] := by
        rw [Ne, concat_eq_nil, take_eq_nil_iff]
        rintro (h | rfl)
        · cases h
        · cases hlt
      obtain ⟨m, hjoin, hm⟩ := join_bytes (by rw [hparts]; exact hfull)
      exact ⟨some m, congrArg Except.ok hjoin, by simp, by rw [bytesOf_some, hm, hparts]⟩
  · intro hnone
    have hmatch : lastMatch ((components is).map component)
        ((components js).map component) = none := by
      rw [lastMatch_none hne, map_bytes_components, map_bytes_components]
      exact hnone
    rw [hmatch]

/-- A component only contains itself. -/
theorem decapsulate_component (hjs : js ≠ [])
    (hright : right.bytes = concat js) :
    (∀ k, LastAt [i.bytes] (js.map Item.bytes) k →
      k = 0 ∧ decapsulate ps (.component i.component) (some right) = .ok none) ∧
    ((∀ k, ¬ OccursAt [i.bytes] (js.map Item.bytes) k) →
      decapsulate ps (.component i.component) (some right) =
        .ok (some (.component i.component))) := by
  have hequal : (component i.component).equal right = true ↔ js = [i] := by
    unfold equal
    rw [decide_eq_true_iff, bytes_component, Item.component_bytes, hright]
    constructor
    · intro h
      apply concat_inj
      rw [← h, concat_cons, concat_nil, append_nil]
    · rintro rfl
      rw [concat_cons, concat_nil, append_nil]
  unfold decapsulate
  dsimp only
  constructor
  · intro k hlast
    have hbound := hlast.1.bound (by simpa using hjs)
    have hpos := length_pos_iff.mpr hjs
    rw [length_map, length_singleton] at hbound
    obtain ⟨j, rfl⟩ := length_eq_one_iff.mp (show js.length = 1 by omega)
    obtain rfl : k = 0 := by
      omega
    have hoccurs : [j.bytes] <+: [i.bytes] := hlast.1
    obtain ⟨hbytes, -⟩ := cons_prefix_cons.mp hoccurs
    have hji : [j] = [i] := concat_inj (by simp [hbytes])
    exact ⟨rfl, if_pos (hequal.mpr hji)⟩
  · intro hnone
    rw [if_neg]
    intro h
    apply hnone 0
    rw [hequal.mp h]
    exact prefix_rfl

/-- `Decapsulate` cuts an address at the last place where the parts of the other one stand,
and gives the address back that was encapsulated. -/
theorem decapsulate_exact (ps : Protocols ε) (b : Addr ε) (hb : b.Valid ps) :
    (∀ a : Addr ε, a.Valid ps →
      ∃ r, decapsulate ps (encapsulate a (some b)) (some b) = .ok (some r) ∧ r.equal a = true) ∧
    ∀ m : Addr ε, m.Valid ps → ∃ mParts bParts, split ps (some m) = .ok mParts ∧
      split ps (some b) = .ok bParts ∧ m.bytes = (mParts.map Addr.bytes).flatten ∧
      (∀ i, LastAt (mParts.map Addr.bytes) (bParts.map Addr.bytes) i →
        ∃ r, decapsulate ps m (some b) = .ok r ∧ (r = none ↔ i = 0) ∧
          bytesOf r = ((mParts.take i).map Addr.bytes).flatten) ∧
      ((∀ i, ¬ OccursAt (mParts.map Addr.bytes) (bParts.map Addr.bytes) i) →
        ∃ r, decapsulate ps m (some b) = .ok (some r) ∧ r.equal m = true) := by
  obtain ⟨js, hjs, -, hbBytes, hbSplit, -⟩ := hb.items
  have hequal : ∀ r o : Addr ε, r.bytes = o.bytes → r.equal o = true :=
    fun r o h => decide_eq_true h
  refine ⟨?_, ?_⟩
  · intro a ha
    obtain ⟨is, his, -, haBytes, -, -⟩ := ha.items
    have hcaps : encapsulate a (some b) = .multiaddr (concat (is ++ js)) := by
      rw [concat_append, ← haBytes, ← hbBytes, encapsulate_some]
    have hlast : LastAt ((is ++ js).map Item.bytes) (js.map Item.bytes) is.length := by
      rw [map_append]
      have := lastAt_append (is.map Item.bytes) (js.map Item.bytes) (by simpa using hjs)
      rwa [length_map] at this
    obtain ⟨r, hrun, hnone, hbytes⟩ := (decapsulate_items (is ++ js) hjs hbSplit).1 is.length hlast
    rw [take_left] at hbytes
    rw [hcaps, hrun]
    cases r with
    | none => exact absurd (length_eq_zero_iff.mp (hnone.mp rfl)) his
    | some r => exact ⟨r, rfl, hequal r a (by rw [haBytes]; exact hbytes)⟩
  · intro m hm
    obtain ⟨is, his, -, hmBytes, hmSplit, hcomp⟩ := hm.items
    refine ⟨_, _, hmSplit, hbSplit, ?_, ?_⟩
    · rw [map_bytes_components, flatten_map_bytes, hmBytes]
    · simp only [map_take, map_bytes_components]
      simp only [← map_take]
      cases m with
      | multiaddr bytes =>
        subst hmBytes
        obtain ⟨hfound, hnone⟩ := decapsulate_items is hjs hbSplit
        exact ⟨hfound, fun h => ⟨_, hnone h, hequal _ _ rfl⟩⟩
      | component c =>
        obtain ⟨i, rfl, rfl⟩ := hcomp c rfl
        obtain ⟨hfound, hnone⟩ := decapsulate_component hjs hbBytes
        refine ⟨fun k hk => ?_, fun h => ⟨_, hnone h, hequal _ _ rfl⟩⟩
        obtain ⟨rfl, hrun⟩ := hfound k hk
        exact ⟨none, hrun, by simp, rfl⟩

end

theorem decapsulate_exact_ports :
    ∃ r, decapsulate portTable (.multiaddr [6, 0, 80, 6, 1, 1]) (some (.multiaddr [6, 1, 1])) =
      .ok (some r) ∧ r.equal (.multiaddr [6, 0, 80]) = true := by
  have ha : (multiaddr [6, 0, 80]).Valid portTable :=
    ⟨by decide +kernel, fun c hc => by cases hc⟩
  have hb : (multiaddr [6, 1, 1]).Valid portTable :=
    ⟨by decide +kernel, fun c hc => by cases hc⟩
  exact (decapsulate_exact portTable _ hb).1 _ ha

end Dep2p.Multiaddr.Wire
