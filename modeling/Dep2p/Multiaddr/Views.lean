import Dep2p.Multiaddr.Component

/- The accessors of multiaddresses (`util.go`, `multiaddr.go`).

   Each of them walks over the bytes in a loop of its own and panics where a component cannot
   be read. Over the bytes of a list of items every loop does what the corresponding function
   does on the list: `forEach` visits the items, `split` lists them, `splitFunc` cuts the list
   where the callback first answers true. Nothing here depends on the values, so all of it
   also holds for the bytes that `Encapsulate` puts together, valid or not.

   Correspondence (Go ↔ Lean):
     interface `Multiaddr`, nil                    ↔ `Addr`, `none`
     `ForEach`, `Split`, `Join`                    ↔ `forEach`, `split`, `join`
     `SplitFirst`, `SplitLast`, `SplitFunc`        ↔ the same names
     `Protocols`, `ValueForProtocol`               ↔ `protocols`, `valueForProtocol`
     `Encapsulate`, `Decapsulate`                  ↔ the same names

   A callback carries the variables that it closes over as a state `σ`. -/
namespace Dep2p.Multiaddr.Wire

open Lib Varint List

variable {ε σ : Type}

/-- A value of the interface `Multiaddr` that is not nil. -/
inductive Addr (ε : Type) where
  | multiaddr (bytes : Bytes)
  | component (c : Component ε)

namespace Addr

def bytes : Addr ε → Bytes
  | multiaddr b => b
  | component c => c.bytes

/-- `Equal` -/
def equal (m o : Addr ε) : Bool := m.bytes = o.bytes

@[simp] theorem bytes_component (c : Component ε) : (component c).bytes = c.bytes := rfl

end Addr

/-- The bytes of an address or of nil. -/
def bytesOf (m : Option (Addr ε)) : Bytes := m.elim [] Addr.bytes

@[simp] theorem bytesOf_some (m : Addr ε) : bytesOf (some m) = m.bytes := rfl

variable (ps : Protocols ε)

/-! ## ForEach -/

def forEachLoop (cb : σ → Component ε → Run ε (σ × Bool)) (s : σ) (b : Bytes) : Run ε σ :=
  if b.isEmpty then .ok s
  else
    match _h : readComponent ps b with
    | .error _ => .error .panicked
    | .ok (n, c) =>
      match cb s c with
      | .error err => .error err
      | .ok (s, false) => .ok s
      | .ok (s, true) =>
        forEachLoop cb s (b.drop n)
termination_by b.length
decreasing_by exact readComponent_shorter _h

variable (cb : σ → Component ε → Run ε (σ × Bool)) (i : Item ps) (ys : Bytes)

def forEach (m : Option (Addr ε)) (cb : σ → Component ε → Run ε (σ × Bool)) (s : σ) : Run ε σ :=
  match m with
  | none => .ok s
  | some (.component c) => (cb s c).map Prod.fst
  | some (.multiaddr b) => forEachLoop ps cb s b

/-- A callback over a list of components. -/
def visit (cb : σ → Component ε → Run ε (σ × Bool)) : σ → List (Component ε) → Run ε σ
  | s, [] => .ok s
  | s, c :: cs =>
    match cb s c with
    | .error err => .error err
    | .ok (s, false) => .ok s
    | .ok (s, true) => visit cb s cs

variable {ps} {is : List (Item ps)} {cs : List (Component ε)}

/-- The components of items. -/
def components (is : List (Item ps)) : List (Component ε) := is.map Item.component

@[simp] theorem components_cons :
    components (i :: is) = i.component :: components is := rfl

theorem not_isEmpty_item : ¬ (i.bytes ++ ys).isEmpty = true := by
  rw [List.isEmpty_iff, append_eq_nil_iff]
  exact fun h => i.bytes_ne_nil h.1

theorem forEachLoop_item (s : σ) (i : Item ps) (ys : Bytes) :
    forEachLoop ps cb s (i.bytes ++ ys) =
      match cb s i.component with
      | .error err => .error err
      | .ok (s, false) => .ok s
      | .ok (s, true) => forEachLoop ps cb s ys := by
  rw [forEachLoop, if_neg (not_isEmpty_item i ys)]
  split
  · rename_i h
    rw [readComponent_item] at h
    cases h
  · rename_i h
    rw [readComponent_item] at h
    cases h
    rw [drop_left]

theorem forEachLoop_concat (s : σ) :
    forEachLoop ps cb s (concat is) = visit cb s (components is) := by
  induction is generalizing s with
  | nil =>
    rw [forEachLoop]
    rfl
  | cons i is ih =>
    rw [concat_cons, forEachLoop_item, components_cons, visit]
    split
    · rfl
    · rfl
    · exact ih _

/-- A callback that never panics makes no visit panic. -/
theorem visit_ok {cb : σ → Component ε → Run ε (σ × Bool)}
    (hcb : ∀ s, ∀ c ∈ cs, ∃ res, cb s c = .ok res) (s : σ) : ∃ s', visit cb s cs = .ok s' := by
  induction cs generalizing s with
  | nil => exact ⟨s, rfl⟩
  | cons c cs ih =>
    obtain ⟨⟨s', more⟩, hres⟩ := hcb s c mem_cons_self
    rw [visit, hres]
    cases more with
    | false => exact ⟨s', rfl⟩
    | true => exact ih (fun s c hc => hcb s c (mem_cons_of_mem _ hc)) s'

/-! ## Split and Join -/

variable (ps) in
def split (m : Option (Addr ε)) : Run ε (List (Addr ε)) :=
  match m with
  | some (.component c) => .ok [.component c]
  | m => forEach ps m (fun addrs c => .ok (addrs ++ [.component c], true)) []

def join : List (Option (Addr ε)) → Option (Addr ε)
  | [] => some (.multiaddr [])
  | [m] => m
  | ms =>
    let b := ms.flatMap bytesOf
    if b.length = 0 then none else some (.multiaddr b)

theorem visit_append (addrs : List (Addr ε)) :
    visit (fun addrs c => .ok (addrs ++ [.component c], true)) addrs cs =
      .ok (addrs ++ cs.map .component) := by
  induction cs generalizing addrs with
  | nil =>
    rw [map_nil, append_nil]
    rfl
  | cons c cs ih =>
    rw [visit]
    dsimp only
    rw [ih, append_assoc, singleton_append, map_cons]

theorem split_concat :
    split ps (some (.multiaddr (concat is))) = .ok ((components is).map .component) := by
  unfold split forEach
  dsimp only
  rw [forEachLoop_concat, visit_append, nil_append]

@[simp] theorem map_bytes_components :
    ((components is).map .component).map Addr.bytes = is.map Item.bytes := by
  unfold components
  rw [map_map, map_map]
  rfl

theorem flatMap_bytesOf (ms : List (Addr ε)) :
    (ms.map some).flatMap bytesOf = (ms.map Addr.bytes).flatten := by
  induction ms with
  | nil => rfl
  | cons m ms ih =>
    rw [map_cons, flatMap_cons, ih]
    rfl

/-- `Join` of addresses that are not all empty has their bytes. -/
theorem join_bytes {ms : List (Addr ε)} (h : (ms.map Addr.bytes).flatten ≠ []) :
    ∃ m, join (ms.map some) = some m ∧ m.bytes = (ms.map Addr.bytes).flatten := by
  match ms, h with
  | [], h => exact absurd rfl h
  | [m], _ =>
    refine ⟨m, rfl, ?_⟩
    rw [map_singleton, flatten_singleton]
  | m :: m' :: ms, h =>
    have hflat := flatMap_bytesOf (m :: m' :: ms)
    rw [join, hflat, if_neg (mt length_eq_zero_iff.mp h)]
    · exact ⟨_, rfl, rfl⟩
    · rintro ⟨⟩
    · rintro x ⟨⟩

theorem flatten_map_bytes : (is.map Item.bytes).flatten = concat is :=
  flatMap_def.symm

/-! ## SplitFirst, SplitLast, SplitFunc -/

variable (ps)

def splitFirst (m : Option (Addr ε)) : Run ε (Option (Component ε) × Option (Addr ε)) :=
  match m with
  | none => .ok (none, none)
  | some (.component c) => .ok (some c, none)
  | some (.multiaddr b) =>
    if b.length = 0 then .ok (none, none)
    else
      match readComponent ps b with
      | .error _ => .error .panicked
      | .ok (n, c) =>
        if b.length = n then .ok (some c, none) else .ok (some c, some (.multiaddr (b.drop n)))

variable {c : Component ε} {b : Bytes} {offset : Nat} {n : Nat}

theorem readComponent_offset {ps : Protocols ε} (h : readComponent ps (b.drop offset) = .ok (n, c)) :
    b.length - (offset + n) < b.length - offset := by
  have hlt := readComponent_shorter h
  simp only [length_drop] at hlt
  omega

def splitLastLoop (b : Bytes) (offset : Nat) :
    Run ε (Option (Addr ε) × Option (Component ε)) :=
  match _h : readComponent ps (b.drop offset) with
  | .error _ => .error .panicked
  | .ok (n, c) =>
    if b.length = n + offset then
      if offset = 0 then .ok (none, some c)
      else .ok (some (.multiaddr (b.take offset)), some c)
    else splitLastLoop b (offset + n)
termination_by b.length - offset
decreasing_by exact readComponent_offset _h

def splitLast (m : Option (Addr ε)) : Run ε (Option (Addr ε) × Option (Component ε)) :=
  match m with
  | none => .ok (none, none)
  | some (.component c) => .ok (none, some c)
  | some (.multiaddr b) => if b.length = 0 then .ok (none, none) else splitLastLoop ps b 0

/-- Where the callback first answers true. -/
def splitFuncLoop (cb : σ → Component ε → σ × Bool) (s : σ) (b : Bytes) (offset : Nat) :
    Run ε Nat :=
  if offset < b.length then
    match _h : readComponent ps (b.drop offset) with
    | .error _ => .error .panicked
    | .ok (n, c) =>
      match cb s c with
      | (_, true) => .ok offset
      | (s, false) => splitFuncLoop cb s b (offset + n)
  else .ok offset
termination_by b.length - offset
decreasing_by exact readComponent_offset _h

def splitFunc (m : Option (Addr ε)) (cb : σ → Component ε → σ × Bool) (s : σ) :
    Run ε (Option (Addr ε) × Option (Addr ε)) :=
  match m with
  | none => .ok (none, none)
  | some (.component c) =>
    if (cb s c).2 then .ok (none, some (.component c)) else .ok (some (.component c), none)
  | some (.multiaddr b) =>
    if b.length = 0 then .ok (none, none)
    else
      match splitFuncLoop ps cb s b 0 with
      | .error err => .error err
      | .ok offset =>
        if offset = 0 then .ok (none, some (.multiaddr b))
        else if offset = b.length then .ok (some (.multiaddr b), none)
        else .ok (some (.multiaddr (b.take offset)), some (.multiaddr (b.drop offset)))

/-- How many components a callback passes over. -/
def passed (cb : σ → Component ε → σ × Bool) : σ → List (Component ε) → Nat
  | _, [] => 0
  | s, c :: cs =>
    match cb s c with
    | (_, true) => 0
    | (s, false) => passed cb s cs + 1

variable {ps} {j : Item ps}

theorem passed_le (cb : σ → Component ε → σ × Bool) (s : σ) (cs : List (Component ε)) :
    passed cb s cs ≤ cs.length := by
  induction cs generalizing s with
  | nil => exact le_refl 0
  | cons c cs ih =>
    rw [passed]
    split
    · exact Nat.zero_le _
    · exact Nat.succ_le_succ (ih _)

/-- A predicate passes over the components before the first one that satisfies it. -/
theorem passed_pred (p : Component ε → Bool) :
    passed (fun _ c => ((), p c)) () cs = (cs.takeWhile fun c => !p c).length := by
  induction cs with
  | nil => rfl
  | cons c cs ih =>
    rw [passed, takeWhile_cons]
    cases hp : p c with
    | false => simp [ih]
    | true => simp

theorem splitFirst_concat :
    splitFirst ps (some (.multiaddr (concat (i :: is)))) =
      .ok (some i.component, if is = [] then none else some (.multiaddr (concat is))) := by
  have hpos := i.bytes_length_pos
  unfold splitFirst
  dsimp only
  rw [concat_cons, if_neg (by rw [length_append]; omega), readComponent_item]
  dsimp only
  by_cases his : is = []
  · rw [if_pos his, if_pos (by rw [concat_eq_nil.mpr his, append_nil])]
  · have hlen : (i.bytes ++ concat is).length ≠ i.bytes.length := by
      have := length_pos_iff.mpr (mt concat_eq_nil.mp his)
      rw [length_append]
      omega
    rw [if_neg his, if_neg hlen, drop_left]

/-- Behind some items, the next one is read. -/
theorem readComponent_behind (js : List (Item ps)) :
    readComponent ps ((concat (is ++ j :: js)).drop (concat is).length) =
      .ok (j.bytes.length, j.component) := by
  rw [concat_append, drop_left, concat_cons, readComponent_item]

theorem length_concat_step :
    (concat is).length + j.bytes.length = (concat (is ++ [j])).length := by
  simp

theorem splitLastLoop_step (h : readComponent ps (b.drop offset) = .ok (n, c)) :
    splitLastLoop ps b offset =
      if b.length = n + offset then
        if offset = 0 then .ok (none, some c)
        else .ok (some (.multiaddr (b.take offset)), some c)
      else splitLastLoop ps b (offset + n) := by
  rw [splitLastLoop]
  split
  · rename_i h'
    rw [h] at h'
    cases h'
  · rename_i h'
    rw [h] at h'
    cases h'
    rfl

/-- The loop from a boundary between two items on. -/
theorem splitLastLoop_concat (is js : List (Item ps)) (j : Item ps) :
    splitLastLoop ps (concat (is ++ (js ++ [j]))) (concat is).length =
      .ok (if is ++ js = [] then none else some (.multiaddr (concat (is ++ js))),
        some j.component) := by
  induction js generalizing is with
  | nil =>
    have hend : (concat (is ++ [j])).length = j.bytes.length + (concat is).length := by
      rw [← length_concat_step, add_comm]
    rw [nil_append, append_nil, splitLastLoop_step (readComponent_behind []),
      if_pos hend, concat_append, take_left]
    by_cases his : is = []
    · rw [if_pos his, if_pos (by rw [his]; rfl)]
    · rw [if_neg his, if_neg (mt length_eq_zero_iff.mp (mt concat_eq_nil.mp his))]
  | cons i js ih =>
    have hpos := j.bytes_length_pos
    have hnext : is ++ i :: (js ++ [j]) = (is ++ [i]) ++ (js ++ [j]) := by simp
    have hmore : (concat (is ++ i :: (js ++ [j]))).length ≠ i.bytes.length + (concat is).length := by
      simp only [concat_append, concat_cons, length_append]
      omega
    rw [cons_append, splitLastLoop_step (readComponent_behind (js ++ [j])),
      if_neg hmore, length_concat_step, hnext, ih, append_assoc, singleton_append]

theorem splitLast_concat :
    splitLast ps (some (.multiaddr (concat (is ++ [j])))) =
      .ok (if is = [] then none else some (.multiaddr (concat is)), some j.component) := by
  have hne : (concat (is ++ [j])).length ≠ 0 := by
    have hpos := j.bytes_length_pos
    rw [← length_concat_step]
    omega
  unfold splitLast
  dsimp only
  rw [if_neg hne]
  exact splitLastLoop_concat [] is j

theorem splitFuncLoop_step (h : readComponent ps (b.drop offset) = .ok (n, c))
    (hlt : offset < b.length) (cb : σ → Component ε → σ × Bool) (s : σ) :
    splitFuncLoop ps cb s b offset =
      match cb s c with
      | (_, true) => .ok offset
      | (s, false) => splitFuncLoop ps cb s b (offset + n) := by
  rw [splitFuncLoop, if_pos hlt]
  split
  · rename_i h'
    rw [h] at h'
    cases h'
  · rename_i h'
    rw [h] at h'
    cases h'
    rfl

theorem splitFuncLoop_concat (cb : σ → Component ε → σ × Bool) (s : σ) (is js : List (Item ps)) :
    splitFuncLoop ps cb s (concat (is ++ js)) (concat is).length =
      .ok (concat (is ++ js.take (passed cb s (components js)))).length := by
  induction js generalizing s is with
  | nil =>
    rw [splitFuncLoop, append_nil, if_neg (lt_irrefl _), take_nil, append_nil]
  | cons j js ih =>
    have hpos := j.bytes_length_pos
    have hlt : (concat is).length < (concat (is ++ j :: js)).length := by
      simp only [concat_append, concat_cons, length_append]
      omega
    rw [splitFuncLoop_step (readComponent_behind js) hlt, components_cons, passed]
    split
    · rw [take_zero, append_nil]
    · rename_i s' hs
      have hnext : is ++ j :: js = (is ++ [j]) ++ js := by simp
      rw [length_concat_step, hnext, ih, take_succ_cons, append_assoc,
        singleton_append]

variable {is : List (Item ps)}

/-- The two parts are those of the items. -/
theorem splitFunc_concat (his : is ≠ []) (cb : σ → Component ε → σ × Bool) (s : σ) :
    splitFunc ps (some (.multiaddr (concat is))) cb s =
      .ok (if passed cb s (components is) = 0 then none
          else some (.multiaddr (concat (is.take (passed cb s (components is))))),
        if passed cb s (components is) = is.length then none
          else some (.multiaddr (concat (is.drop (passed cb s (components is)))))) := by
  have hbytes : (concat is).length ≠ 0 := mt length_eq_zero_iff.mp (mt concat_eq_nil.mp his)
  have hle : passed cb s (components is) ≤ is.length := by
    have := passed_le cb s (components is)
    rwa [components, length_map] at this
  have hloop := splitFuncLoop_concat cb s [] is
  rw [nil_append, nil_append, concat_nil, length_nil] at hloop
  unfold splitFunc
  dsimp only
  rw [if_neg hbytes, hloop]
  dsimp only
  generalize passed cb s (components is) = k at hle ⊢
  have hparts : concat is = concat (is.take k) ++ concat (is.drop k) := by
    rw [← concat_append, take_append_drop]
  have hlen := congrArg length hparts
  rw [length_append] at hlen
  have hnone : (concat (is.take k)).length = 0 ↔ k = 0 := by
    rw [length_eq_zero_iff, concat_eq_nil, take_eq_nil_iff]
    exact or_iff_left his
  have hrest : (concat (is.drop k)).length = 0 ↔ is.length ≤ k := by
    rw [length_eq_zero_iff, concat_eq_nil, drop_eq_nil_iff]
  by_cases hzero : k = 0
  · subst hzero
    rw [if_pos (hnone.mpr rfl), if_pos rfl, if_neg (by omega), drop_zero]
  · rw [if_neg (mt hnone.mp hzero), if_neg hzero]
    by_cases hall : k = is.length
    · rw [if_pos (by omega), if_pos hall, hall, take_length]
    · rw [if_neg (by omega), if_neg hall, hparts, take_left, drop_left]

/-! ## Protocols, ValueForProtocol -/

variable (ps)

theorem readVarintCode_shorter {code : Nat} (h : readVarintCode b = .ok (code, n)) :
    0 < n ∧ n ≤ b.length := by
  obtain ⟨ys, rfl, rfl, -⟩ := readVarintCode_ok h
  have hpos := length_pos_iff.mpr (putUvarint_ne_nil code)
  rw [length_append]
  omega

/-- `Protocols` reads the frames on its own; `b[n+size:]` is a slice. -/
def protocolsLoop (b : Bytes) : Run ε (List (Protocol ε)) :=
  if b.isEmpty then .ok []
  else
    match _h : readVarintCode b with
    | .error _ => .error .panicked
    | .ok (code, n) =>
      let p := ps.protocolWithCode code
      if p.code = 0 then .error .panicked
      else
        match sizeForAddr p (b.drop n) with
        | .error _ => .error .panicked
        | .ok (m, size) =>
          if (b.drop n).length < m + size then .error .panicked
          else
            match protocolsLoop ((b.drop n).drop (m + size)) with
            | .error err => .error err
            | .ok rest => .ok (p :: rest)
termination_by b.length
decreasing_by
  have := readVarintCode_shorter _h
  simp only [length_drop]
  omega

def protocols : Addr ε → Run ε (List (Protocol ε))
  | .multiaddr b => protocolsLoop ps b
  | .component c => .ok [c.protocol]

inductive LookupErr where
  | errProtocolNotFound
  deriving DecidableEq, Repr

/-- The value of the first component with this code. -/
def valueForProtocol (m : Addr ε) (code : Nat) : Run ε (Except LookupErr Bytes) :=
  match m with
  | .component c =>
    if c.protocol.code ≠ code then .ok (.error .errProtocolNotFound) else c.value.map .ok
  | .multiaddr b =>
    forEach ps (some (.multiaddr b))
      (fun res c =>
        if c.protocol.code = code then c.value.map fun value => (.ok value, false)
        else .ok (res, true))
      (.error .errProtocolNotFound)

variable {ps}

theorem protocolsLoop_item :
    protocolsLoop ps (i.bytes ++ ys) =
      match protocolsLoop ps ys with
      | .error err => .error err
      | .ok rest => .ok (i.protocol :: rest) := by
  have hsplit : i.bytes ++ ys =
      putUvarint i.code ++ (lengthBytes i.protocol i.value.length ++ (i.value ++ ys)) := by
    simp [Item.bytes, Item.lead]
  have hcode : readVarintCode (i.bytes ++ ys) = .ok (i.code, (putUvarint i.code).length) := by
    rw [hsplit, readVarintCode_put i.small]
  have hfor : sizeForAddr i.protocol (lengthBytes i.protocol i.value.length ++ (i.value ++ ys)) =
      .ok ((lengthBytes i.protocol i.value.length).length, i.value.length) := by
    by_cases hsize : i.protocol.size = 0
    · rw [i.sized.1 hsize, lengthBytes, if_neg (by omega), sizeForAddr, if_neg (by omega),
        if_pos hsize]
      rfl
    · exact sizeForAddr_sized i.sized hsize
  have hdrop : (lengthBytes i.protocol i.value.length ++ (i.value ++ ys)).drop
      ((lengthBytes i.protocol i.value.length).length + i.value.length) = ys := by
    rw [← drop_drop, drop_left, drop_left]
  rw [protocolsLoop, if_neg (not_isEmpty_item i ys)]
  split
  · rename_i h
    rw [hcode] at h
    cases h
  · rename_i h
    rw [hcode] at h
    cases h
    rw [if_neg i.known, hsplit, drop_left, hfor]
    dsimp only
    rw [hdrop, if_neg]
    simp only [length_append]
    omega

theorem protocols_concat :
    protocols ps (.multiaddr (concat is)) = .ok (is.map Item.protocol) := by
  unfold protocols
  dsimp only
  induction is with
  | nil =>
    rw [protocolsLoop]
    rfl
  | cons i is ih => rw [concat_cons, protocolsLoop_item, ih, map_cons]

/-! ## The views together -/

/-- Every view of the bytes is a view of the components `cs`, and none panics by itself. -/
structure Views (ps : Protocols ε) (b : Bytes) (cs : List (Component ε)) : Prop where
  forEach : ∀ {σ : Type} (cb : σ → Component ε → Run ε (σ × Bool)) (s : σ),
    forEach ps (some (.multiaddr b)) cb s = visit cb s cs
  forEach_ok : ∀ {σ : Type} (cb : σ → Component ε → Run ε (σ × Bool)) (s : σ),
    (∀ s, ∀ c ∈ cs, ∃ res, cb s c = .ok res) → ∃ s', Wire.forEach ps (some (.multiaddr b)) cb s = .ok s'
  protocols : protocols ps (.multiaddr b) = .ok (cs.map Component.protocol)
  split : split ps (some (.multiaddr b)) = .ok (cs.map Addr.component)
  join : ∃ m, join ((cs.map Addr.component).map some) = some m ∧ m.bytes = b
  splitFirst : ∃ rest, splitFirst ps (some (.multiaddr b)) = .ok (cs.head?, rest)
  splitLast : ∃ rest, splitLast ps (some (.multiaddr b)) = .ok (rest, cs.getLast?)
  splitFunc : ∀ {σ : Type} (cb : σ → Component ε → σ × Bool) (s : σ),
    ∃ parts, splitFunc ps (some (.multiaddr b)) cb s = .ok parts
  /-- The first part are the components before the first one that satisfies the predicate. -/
  splitFunc_pred : ∀ p : Component ε → Bool, ∃ first rest,
    Wire.splitFunc ps (some (.multiaddr b)) (fun _ c => ((), p c)) () = .ok (first, rest) ∧
      bytesOf first ++ bytesOf rest = b ∧
      bytesOf first = ((cs.takeWhile fun c => !p c).map Component.bytes).flatten
  valueForProtocol : ∀ code, ∃ res, valueForProtocol ps (.multiaddr b) code = .ok res

theorem flatten_bytes_components :
    ((components is).map Component.bytes).flatten = concat is := by
  unfold components
  rw [map_map]
  exact flatten_map_bytes

/-- The bytes of the parts of `SplitFunc`, which are nil where they are empty. -/
theorem bytesOf_part {c : Prop} [Decidable c] (h : c → is = []) :
    bytesOf (if c then none else some (.multiaddr (concat is) : Addr ε)) = concat is := by
  split
  · rename_i hc
    rw [h hc]
    rfl
  · rfl

theorem views_concat (his : is ≠ []) (hvalue : ∀ i ∈ is, ∃ value, i.component.value = .ok value) :
    Views ps (concat is) (components is) where
  forEach cb s := forEachLoop_concat cb s
  forEach_ok cb s hcb := by
    obtain ⟨s', hs'⟩ := visit_ok hcb s
    exact ⟨s', (forEachLoop_concat cb s).trans hs'⟩
  protocols := by
    rw [protocols_concat, components, map_map]
    rfl
  split := split_concat
  join := by
    have hbytes : ((components is).map .component).map Addr.bytes = is.map Item.bytes :=
      map_bytes_components
    have hne : (((components is).map .component).map Addr.bytes).flatten ≠ [] := by
      rw [hbytes]
      exact mt concat_eq_nil.mp his
    obtain ⟨m, hm, hflat⟩ := join_bytes hne
    exact ⟨m, hm, by rw [hflat, hbytes, flatten_map_bytes]⟩
  splitFirst := by
    obtain ⟨i, is, rfl⟩ := exists_cons_of_ne_nil his
    exact ⟨_, splitFirst_concat i⟩
  splitLast := by
    obtain ⟨is', j, rfl⟩ := (eq_nil_or_concat' is).resolve_left his
    have hlast : (components (is' ++ [j])).getLast? = some j.component := by
      rw [components, map_append, map_singleton, getLast?_concat]
    exact ⟨_, hlast ▸ splitLast_concat⟩
  splitFunc cb s := ⟨_, splitFunc_concat his cb s⟩
  splitFunc_pred p := by
    refine ⟨_, _, splitFunc_concat his _ (), ?_, ?_⟩
    · rw [bytesOf_part fun hk => by rw [hk, take_zero],
        bytesOf_part fun hk => by rw [hk, drop_length], ← concat_append, take_append_drop]
    · rw [bytesOf_part fun hk => by rw [hk, take_zero], ← flatten_bytes_components, passed_pred]
      congr 2
      rw [components, map_take]
      exact (prefix_iff_eq_take.mp ( takeWhile_prefix _)).symm
  valueForProtocol code := by
    unfold valueForProtocol forEach
    dsimp only
    rw [forEachLoop_concat]
    refine visit_ok (fun res c hc => ?_) _
    obtain ⟨i, hi, rfl⟩ := mem_map.mp hc
    obtain ⟨value, hv⟩ := hvalue i hi
    split
    · rw [hv]
      exact ⟨_, rfl⟩
    · exact ⟨_, rfl⟩

end Dep2p.Multiaddr.Wire
