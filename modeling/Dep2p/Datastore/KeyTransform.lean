import Dep2p.Datastore.Under

/- A datastore under a prefix (`datastore/keytransform`).

   A wrapped datastore puts the prefix before every key and takes it off again. A query is
   split in two: the child gets the prefix, and as many of the orders and filters as can be
   said about its own keys, and the rest is applied naively to what comes back.

   The flat map of a child is what its entries are with the prefix off. In the condition of
   `wrapped_transparent` the wrapped datastore cannot be told from it:
   the prefix is a clean key, and so are the texts in the key filters of a query that are
   rewritten for the child. `NewKey` cleans a text before the prefix is put before it, so a
   text that is not clean becomes another one (`slash_filter_differs`).

   Correspondence (Go ↔ Lean):
     `PrefixTransform.InvertKey`                      ↔ `invertKey`
     `Datastore.prepareQuery`                         ↔ `prepareQuery`
     `Datastore.Query`                                ↔ `Wrapped.query`
     `Datastore.Put`, `Get`, …                        ↔ `Wrapped.step`, `Wrapped.Answers` -/
namespace Dep2p.Datastore

open Lib List Key

/-! ## The transform -/

def invertKey (p k : Key) : Except (Fault Empty) Key :=
  if p = Key.root then .ok k
  else if p.isAncestorOf k then rawKey (k.string.drop p.string.length)
  else .error .panicked

/-! ## Splitting a query -/

/-- The orders the child applies, if it applies any: an order by keys decides between any
two keys, so nothing behind it matters. -/
def delegateOrders : List Order → Option (List Order)
  | [] => some []
  | .byValue :: os => (delegateOrders os).map (.byValue :: ·)
  | .byValueDescending :: os => (delegateOrders os).map (.byValueDescending :: ·)
  | .byKey :: _ => some [.byKey]
  | .byKeyDescending :: _ => some [.byKeyDescending]
  | .other _ :: _ => none

def delegateFilters (p : Key) : List Filter → Option (List Filter)
  | [] => some []
  | .valueCompare op value :: fs => (delegateFilters p fs).map (.valueCompare op value :: ·)
  | .keyCompare op key :: fs =>
    (delegateFilters p fs).map (.keyCompare op (convertKey p (newKey key)).string :: ·)
  | .keyPrefix pre :: fs =>
    (delegateFilters p fs).map (.keyPrefix (convertKey p (newKey pre)).string :: ·)
  | .other _ :: _ => none

/-- What is left to the naive application, and the query for the child. -/
structure Split where
  naive : Query
  child : Query

def Split.orders (q : Query) (sp : Split) : Split :=
  match delegateOrders q.orders with
  | some os => { sp with child := { sp.child with orders := os } }
  | none =>
    { naive := { sp.naive with orders := q.orders, offset := q.offset, limit := q.limit }
      child := { sp.child with orders := [], offset := 0, limit := 0 } }

def Split.filters (p : Key) (q : Query) (sp : Split) : Split :=
  match delegateFilters p q.filters with
  | some fs => { sp with child := { sp.child with filters := fs } }
  | none =>
    { naive := { sp.naive with filters := q.filters, offset := q.offset, limit := q.limit }
      child := { sp.child with filters := [], offset := 0, limit := 0 } }

def prepareQuery (p : Key) (q : Query) : Split :=
  let start : Split := { naive := {}, child := { q with pre := (convertKey p (newKey q.pre)).string } }
  (start.orders q).filters p q

/-- The entry with the prefix off. -/
def invertEntry (p : Key) (e : Entry) : Except (Fault Empty) Entry := do
  let k ← rawKey e.key
  let k ← invertKey p k
  return { e with key := k.string }

/-- The entries up to the first whose key does not have the prefix. -/
def invertEntries (p : Key) : List Entry → Results
  | [] => ⟨[], false⟩
  | e :: es =>
    match invertEntry p e with
    | .ok e' => ⟨e' :: (invertEntries p es).entries, (invertEntries p es).panics⟩
    | .error _ => ⟨[], true⟩

def invertResults (p : Key) (r : Results) : Results :=
  ⟨(invertEntries p r.entries).entries, (invertEntries p r.entries).panics || r.panics⟩

namespace Wrapped

variable (s : Sorter Entry) (p : Key)

/-- `Query` when the child gives its entries in the order of the list. -/
def query (es : List (Key × Bytes)) (q : Query) : Results :=
  naiveQueryApply s (prepareQuery p q).naive
    (invertResults p (Datastore.query s es (prepareQuery p q).child))

def step (t : Store) : Call → Store
  | .put key value => t.set (convertKey p key) value
  | .delete key => t.erase (convertKey p key)
  | _ => t

def Answers (t : Store) : Call → Answer → Prop
  | .put _ _, a => a = .done
  | .get key, a => a = .value (t.get (convertKey p key))
  | .has key, a => a = .found (t.get (convertKey p key)).isSome
  | .getSize key, a => a = .size ((t.get (convertKey p key)).map List.length)
  | .delete _, a => a = .done
  | .query q, a => ∃ es, es.Perm t.entries ∧ a = .results (query s p es q)

def Next (t : Store) (c : Call) (a : Answer) (t' : Store) : Prop := Answers s p t c a ∧ t' = step p t c

end Wrapped

/-! ## What is below the prefix -/

variable {p : Key} {k : Key} {k' : Key}

/-- Inverting undoes converting, and nothing else. -/
theorem invertKey_eq_ok : invertKey p k = .ok k' ↔ k = convertKey p k' ∧ Convertible p k' := by
  unfold invertKey convertKey Convertible
  by_cases hp : p = root
  · rw [hp, child_root]
    simp
  · rw [if_neg hp]
    constructor
    · intro h
      split at h
      · rename_i hanc
        obtain ⟨rest, hrest, hk⟩ := (isAncestorOf_iff hp).mp hanc
        rw [hk, drop_left, rawKey_string, Except.ok.injEq] at h
        subst h
        exact ⟨ext (by rw [hk, child_of_ne hp hrest]), .inr hrest⟩
      · cases h
    · rintro ⟨rfl, hk'⟩
      have hne := hk'.resolve_left hp
      have hstring := child_of_ne hp hne
      rw [if_pos ((isAncestorOf_iff hp).mpr ⟨k', hne, hstring⟩), hstring, drop_left,
        rawKey_string]

theorem convertKey_injective (hk : Convertible p k) (hk' : Convertible p k')
    (h : convertKey p k = convertKey p k') : k = k' := by
  have hinv := invertKey_eq_ok.mpr ⟨rfl, hk⟩
  rw [h, invertKey_eq_ok.mpr ⟨rfl, hk'⟩] at hinv
  exact (Except.ok.inj hinv).symm

/-- An entry of the child with the prefix off, if it is below the prefix. -/
def uncover (p : Key) (kv : Key × Bytes) : Option (Key × Bytes) :=
  (invertKey p kv.1).toOption.map (·, kv.2)

variable {v : Bytes} {keysOnly : Bool}

theorem uncover_eq_some {v' : Bytes} :
    uncover p (k, v) = some (k', v') ↔ (k = convertKey p k' ∧ Convertible p k') ∧ v = v' := by
  rw [← invertKey_eq_ok]
  unfold uncover
  cases invertKey p k with
  | ok k'' | error e => simp [Except.toOption]

theorem uncover_eq_none :
    uncover p (k, v) = none ↔ ∀ k', Convertible p k' → k ≠ convertKey p k' := by
  constructor
  · intro h k' hk' heq
    rw [uncover_eq_some.mpr ⟨⟨heq, hk'⟩, rfl⟩] at h
    cases h
  · intro h
    cases hu : uncover p (k, v) with
    | none => rfl
    | some kv => exact absurd (uncover_eq_some.mp hu).1.1 (h kv.1 (uncover_eq_some.mp hu).1.2)

/-- The map of the entries below the prefix, under their own keys. -/
def flat (p : Key) (t : Store) : Store := ⟨t.entries.filterMap (uncover p)⟩

/-- The entries that are not below the prefix. -/
def outside (p : Key) (t : Store) : List (Key × Bytes) :=
  t.entries.filter fun kv => (uncover p kv).isNone

/-! ## Single keys -/

section Keys

variable {p k : Key} (hk : Convertible p k) (t : Store)
include hk

theorem find?_flat (es : List (Key × Bytes)) :
    ((es.filterMap (uncover p)).find? (·.1 = k)).map (·.2) =
      (es.find? (·.1 = convertKey p k)).map (·.2) := by
  induction es with
  | nil => rfl
  | cons e es ih =>
    obtain ⟨k₁, v₁⟩ := e
    cases hu : uncover p (k₁, v₁) with
    | none =>
      have hne : k₁ ≠ convertKey p k := uncover_eq_none.mp hu k hk
      rw [filterMap_cons_none hu, ih, find?_cons_of_neg (by simpa using hne)]
    | some e' =>
      obtain ⟨k', v'⟩ := e'
      obtain ⟨⟨hk₁, hk'⟩, rfl⟩ := uncover_eq_some.mp hu
      rw [filterMap_cons_some hu]
      by_cases heq : k' = k
      · rw [find?_cons_of_pos (by simpa using heq),
          find?_cons_of_pos (by simp [hk₁, heq])]
        rfl
      · have hne : k₁ ≠ convertKey p k := fun h =>
          heq (convertKey_injective hk' hk (hk₁.symm.trans h))
        rw [find?_cons_of_neg (by simpa using heq), ih,
          find?_cons_of_neg (by simpa using hne)]

theorem get_flat : (flat p t).get k = t.get (convertKey p k) := find?_flat hk t.entries

theorem flat_erase : flat p (t.erase (convertKey p k)) = (flat p t).erase k := by
  unfold flat Table.erase
  congr 1
  rw [filterMap_filter, filter_filterMap]
  apply filterMap_congr
  rintro ⟨k₁, v₁⟩ -
  cases hu : uncover p (k₁, v₁) with
  | none => simp
  | some e' =>
    obtain ⟨k', v'⟩ := e'
    obtain ⟨⟨hk₁, hk'⟩, rfl⟩ := uncover_eq_some.mp hu
    have hiff : k₁ = convertKey p k ↔ k' = k :=
      ⟨fun h => convertKey_injective hk' hk (hk₁.symm.trans h), fun h => by rw [hk₁, h]⟩
    by_cases heq : k' = k <;> simp [hiff, Option.filter]

theorem flat_set : flat p (t.set (convertKey p k) v) = (flat p t).set k v := by
  have hhead : uncover p (convertKey p k, v) = some (k, v) := uncover_eq_some.mpr ⟨⟨rfl, hk⟩, rfl⟩
  have herase := flat_erase hk t
  unfold Table.set
  rw [← herase]
  unfold flat
  rw [filterMap_cons_some hhead]

theorem outside_erase : outside p (t.erase (convertKey p k)) = outside p t := by
  unfold outside Table.erase
  rw [filter_filter]
  apply filter_congr
  rintro ⟨k₁, v₁⟩ -
  cases hu : uncover p (k₁, v₁) with
  | none =>
    have hne : k₁ ≠ convertKey p k := uncover_eq_none.mp hu k hk
    simp [hne]
  | some e' => simp

theorem outside_set : outside p (t.set (convertKey p k) v) = outside p t := by
  have hhead : uncover p (convertKey p k, v) = some (k, v) := uncover_eq_some.mpr ⟨⟨rfl, hk⟩, rfl⟩
  rw [← outside_erase hk t]
  unfold outside Table.set
  rw [filter_cons_of_neg (by simp [hhead])]

end Keys

/-! ## Queries

The child's entries that a query reaches are converted entries of the flat map; `cover` converts
an entry. -/

theorem entryOf_uncover {kv kv' : Key × Bytes} (h : uncover p kv = some kv') :
    entryOf keysOnly kv = cover p (entryOf keysOnly kv') ∧ Uncovered p (entryOf keysOnly kv') := by
  obtain ⟨k, v⟩ := kv
  obtain ⟨k', v'⟩ := kv'
  obtain ⟨⟨rfl, hk'⟩, rfl⟩ := uncover_eq_some.mp h
  refine ⟨?_, k', rfl, hk'⟩
  simp [entryOf, cover, convertKey_string hk']

variable {e : Entry} {pre : Bytes}

theorem invertEntry_cover (h : Uncovered p e) : invertEntry p (cover p e) = .ok e := by
  obtain ⟨k, hk, hconv⟩ := h
  unfold invertEntry cover
  rw [hk, ← convertKey_string hconv, rawKey_string]
  change (invertKey p (convertKey p k) >>= _) = _
  rw [invertKey_eq_ok.mpr ⟨rfl, hconv⟩]
  change Except.ok _ = _
  rw [← hk]

theorem invertResults_cover {l : List Entry} (h : ∀ e ∈ l, Uncovered p e) :
    invertResults p ⟨l.map (cover p), false⟩ = ⟨l, false⟩ := by
  have hentries : invertEntries p (l.map (cover p)) = ⟨l, false⟩ := by
    induction l with
    | nil => rfl
    | cons e es ih =>
      obtain ⟨he, hes⟩ := forall_mem_cons.mp h
      rw [map_cons, invertEntries, invertEntry_cover he, ih hes]
  unfold invertResults
  rw [hentries]
  rfl

/-! ### Prefixes -/

/-- The child's prefix lets nothing through that is outside. -/
theorem inPrefix_outside (hp : p.Clean) (h : uncover p (k, v) = none) :
    inPrefix (convertKey p (newKey pre)).string (entryOf keysOnly (k, v)) = false := by
  have hroot : p ≠ root := by
    rintro rfl
    cases h
  unfold inPrefix
  rw [prefixFilter_convertKey hp (clean_newKey pre) hroot, Bool.eq_false_iff]
  intro hpass
  have hstart : (lead p ++ (lead (newKey pre) ++ [slash])).isPrefixOf k.string = true := hpass
  obtain ⟨rest, hrest⟩ := isPrefixOf_iff_prefix.mp hstart
  -- whatever the query asks for, a slash comes right behind the prefix
  obtain ⟨tail, htail⟩ : ∃ tail, lead (newKey pre) ++ [slash] ++ rest = slash :: tail := by
    rw [lead]
    split
    · exact ⟨rest, rfl⟩
    · obtain ⟨cs, hcs⟩ := (newKey pre).string_cons
      exact ⟨cs ++ [slash] ++ rest, by rw [hcs]; rfl⟩
  have hk : k.string = p.string ++ slash :: tail := by
    rw [← hrest, append_assoc, htail, lead, if_neg hroot]
  obtain ⟨r, hr, hstring⟩ := exists_rest p.string_ne_nil hk
  refine uncover_eq_none.mp h r (.inr hr) (ext ?_)
  rw [convertKey, child_of_ne hroot hr, hstring, hk]

/-- What the child's prefix leaves of its entries. -/
theorem filter_inPrefix (hp : p.Clean) (es : List (Key × Bytes)) :
    (es.map (entryOf keysOnly)).filter (inPrefix (convertKey p (newKey pre)).string) =
      (((es.filterMap (uncover p)).map (entryOf keysOnly)).filter (inPrefix pre)).map (cover p) := by
  induction es with
  | nil => rfl
  | cons kv es ih =>
    cases hu : uncover p kv with
    | none =>
      rw [map_cons, filter_cons_of_neg (by rw [inPrefix_outside hp hu]; decide), ih,
        filterMap_cons_none hu]
    | some kv' =>
      obtain ⟨hentry, he⟩ := entryOf_uncover hu
      have hsame := inPrefix_cover hp pre he
      rw [filterMap_cons_some hu, map_cons, map_cons, filter_cons,
        filter_cons, hentry, hsame, ih]
      split <;> rfl

/-! ### Filters -/

/-- The text in a key filter is a clean key; an empty prefix is as good as the root. -/
def Filter.Clean : Filter → Prop
  | .keyCompare _ key => (newKey key).string = key
  | .keyPrefix pre => pre = [] ∨ (newKey pre).string = pre
  | _ => True

theorem Op.holds_append (op : Op) (p a b : Bytes) : op.holds (p ++ a) (p ++ b) = op.holds a b := by
  have hle : p ++ a ≤ p ++ b ↔ a ≤ b := by
    rw [← not_lt, ← not_lt, append_lt_append_iff]
  have hle' : p ++ b ≤ p ++ a ↔ b ≤ a := by
    rw [← not_lt, ← not_lt, append_lt_append_iff]
  cases op <;> simp [holds, append_lt_append_iff, hle, hle']

/-- Every key but the root compares with the root as with the empty text. -/
theorem Op.holds_root (op : Op) (hk : k ≠ root) :
    op.holds k.string [slash] = op.holds k.string [] := by
  obtain ⟨rest, hrest⟩ := k.string_cons
  have hne : rest ≠ [] := fun h => hk (ext (by rw [hrest, h]; rfl))
  obtain ⟨b, bs, rfl⟩ := exists_cons_of_ne_nil hne
  have hlt : [slash] < slash :: b :: bs := by
    rw [cons_lt_cons_iff]
    exact .inr ⟨rfl, nil_lt_cons b bs⟩
  have hnil : ([] : Bytes) < slash :: b :: bs := nil_lt_cons _ _
  rw [hrest]
  cases op <;> simp [holds, hlt.le, hnil.le, hlt.not_ge]

theorem keyCompare_cover {op : Op} {key : Bytes} (hclean : (newKey key).string = key)
    (he : Uncovered p e) :
    op.holds (lead p ++ e.key) (convertKey p (newKey key)).string = op.holds e.key key := by
  obtain ⟨k, hk, hconv⟩ := he
  by_cases hp : p = root
  · rw [lead, if_pos hp, hp, convertKey, child_root, hclean, nil_append]
  · rw [convertKey_string_lead hp, op.holds_append, hk, lead]
    split
    · rename_i hroot
      rw [← op.holds_root (hconv.resolve_left hp), ← hclean, hroot]
      rfl
    · rw [hclean]

theorem keyPrefix_cover (hclean : pre = [] ∨ (newKey pre).string = pre)
    (he : Uncovered p e) :
    (convertKey p (newKey pre)).string.isPrefixOf (lead p ++ e.key) = pre.isPrefixOf e.key := by
  obtain ⟨k, hk, -⟩ := he
  obtain ⟨rest, hrest⟩ := k.string_cons
  have hslash : [slash].isPrefixOf e.key = true := by
    rw [hk, hrest]
    simp
  have hnew : (newKey pre).string.isPrefixOf e.key = pre.isPrefixOf e.key := by
    rcases hclean with rfl | hclean
    · exact hslash
    · rw [hclean]
  by_cases hp : p = root
  · rw [lead, if_pos hp, hp, convertKey, child_root, nil_append, hnew]
  · rw [convertKey_string_lead hp, isPrefixOf_append, ← hnew, lead]
    split
    · rename_i hroot
      rw [hroot]
      exact hslash.symm
    · rfl

variable {fs : List Filter} {fs' : List Filter}

/-- The child's filters let the conversions of those entries through that the query's own
filters let through. -/
theorem passes_cover (h : delegateFilters p fs = some fs')
    (hclean : ∀ f ∈ fs, f.Clean) (he : Uncovered p e) : passes fs' (cover p e) = passes fs e := by
  induction fs generalizing fs' with
  | nil =>
    cases h
    rfl
  | cons f fs ih =>
    obtain ⟨hf, hfs⟩ := forall_mem_cons.mp hclean
    -- one filter and the rest behind it
    have hstep (g : Filter) (hg : g.filter (cover p e) = f.filter e)
        (hd : (delegateFilters p fs).map (g :: ·) = some fs') :
        passes fs' (cover p e) = passes (f :: fs) e := by
      obtain ⟨gs, hgs, rfl⟩ := Option.map_eq_some_iff.mp hd
      have hrest := ih hgs hfs
      unfold passes at hrest ⊢
      rw [all_cons, all_cons, hg, hrest]
    cases f with
    | valueCompare op value => exact hstep (.valueCompare op value) rfl h
    | keyCompare op key => exact hstep (.keyCompare op _) (keyCompare_cover hf he) h
    | keyPrefix pre => exact hstep (.keyPrefix _) (keyPrefix_cover hf he) h
    | other g => cases h

/-! ### Orders -/

variable {o : Order} {os orders : List Order}

theorem less_of_key (ho : o = .byKey ∨ o = .byKeyDescending) {a b : Entry}
    (hne : a.key ≠ b.key) : less [o] a b = less (o :: os) a b := by
  have hdecided : o.compare a b = -1 ∨ o.compare a b = 1 := by
    rcases ho with rfl | rfl
    · rcases lt_or_gt_of_ne hne with hlt | hlt
      · exact .inl (compareBytes_eq_neg_one.mpr hlt)
      · exact .inr (compareBytes_eq_one.mpr hlt)
    · rw [Order.compare, neg_compareBytes]
      rcases lt_or_gt_of_ne hne with hlt | hlt
      · exact .inr (compareBytes_eq_one.mpr hlt)
      · exact .inl (compareBytes_eq_neg_one.mpr hlt)
  unfold less
  rcases hdecided with h | h
  · rw [if_pos h, if_pos h]
  · rw [h]
    rfl

/-- The orders the child gets are plain, and decide between different keys as those of the
query. -/
structure Delegated (orders os : List Order) : Prop where
  plain : ∀ o ∈ os, o.isPlain = true
  empty : os.isEmpty = orders.isEmpty
  less : ∀ a b : Entry, a.key ≠ b.key → less os a b = less orders a b

theorem Delegated.cons (ho : o.isPlain = true) (h : Delegated orders os) :
    Delegated (o :: orders) (o :: os) where
  plain := forall_mem_cons.mpr ⟨ho, h.plain⟩
  empty := rfl
  less a b hne := by rw [Datastore.less, Datastore.less, h.less a b hne]

theorem Delegated.key (ho : o = .byKey ∨ o = .byKeyDescending) :
    Delegated (o :: orders) [o] where
  plain := by
    rw [forall_mem_singleton]
    rcases ho with rfl | rfl <;> rfl
  empty := rfl
  less _ _ := less_of_key ho

theorem delegated (h : delegateOrders orders = some os) :
    Delegated orders os := by
  induction orders generalizing os with
  | nil =>
    cases h
    exact { plain := by simp, empty := rfl, less := fun _ _ _ => rfl }
  | cons o orders ih =>
    cases o with
    | byValue | byValueDescending =>
      obtain ⟨os', hos', rfl⟩ := Option.map_eq_some_iff.mp h
      exact (ih hos').cons rfl
    | byKey =>
      cases h
      exact .key (.inl rfl)
    | byKeyDescending =>
      cases h
      exact .key (.inr rfl)
    | other cmp => cases h

section Sorting

variable (s : Sorter Entry) {orders os : List Order} (h : Delegated orders os) {l : List Entry}
  (hkeys : (l.map Entry.key).Nodup)
include h hkeys

theorem Delegated.strictOn : StrictOn (Datastore.less orders) l := by
  refine (strictOn_less h.plain hkeys).congr fun a ha b hb hne => (h.less a b fun hkey => ?_).symm
  exact hne (inj_on_of_nodup_map hkeys ha hb hkey)

/-- The child's order of the conversions is the conversion of the query's order. -/
theorem Delegated.orderBy_cover :
    orderBy s os (l.map (cover p)) = (orderBy s orders l).map (cover p) := by
  have hkeys' : ((l.map (cover p)).map Entry.key).Nodup := by
    have hcover : (l.map (cover p)).map Entry.key = (l.map Entry.key).map (lead p ++ ·) := by
      simp [cover]
    rw [hcover]
    exact hkeys.map fun _ _ => append_cancel_left
  unfold orderBy
  rw [h.empty]
  split
  · rfl
  · refine (s.sort_map s (cover p) (h.strictOn hkeys) (strictOn_less h.plain hkeys') ?_).symm
    intro a ha b hb hne
    rw [less_cover p h.plain, h.less a b fun hkey => hne (inj_on_of_nodup_map hkeys ha hb hkey)]

/-- What is filtered after it is sorted could have been filtered before. -/
theorem Delegated.filter_orderBy (f : Entry → Bool) :
    (orderBy s orders l).filter f = orderBy s orders (l.filter f) := by
  unfold orderBy
  split
  · rfl
  · exact s.sort_filter (h.strictOn hkeys) f

end Sorting

/-! ### The split query -/

/-- A query whose key filters are not rewritten, or keep their meaning when they are. -/
def Query.Rewritable (q : Query) : Prop :=
  (∃ f, Filter.other f ∈ q.filters) ∨ ∀ f ∈ q.filters, f.Clean

theorem delegateFilters_other {f : Entry → Bool} (h : .other f ∈ fs) :
    delegateFilters p fs = none := by
  induction fs with
  | nil => cases h
  | cons g fs ih =>
    rcases mem_cons.mp h with rfl | hfs
    · rfl
    · cases g with
      | other g => rfl
      | valueCompare op value | keyCompare op key | keyPrefix pre =>
        exact Option.map_eq_none_iff.mpr (ih hfs)

variable {q : Query}

theorem Query.Rewritable.clean (hq : q.Rewritable) (h : delegateFilters p q.filters = some fs) :
    ∀ f ∈ q.filters, f.Clean := by
  refine hq.resolve_left ?_
  rintro ⟨f, hf⟩
  rw [delegateFilters_other hf] at h
  cases h

variable {es : List (Key × Bytes)} {c : Call}

theorem nodup_uncover (h : (es.map (·.1)).Nodup) :
    ((es.filterMap (uncover p)).map (·.1)).Nodup := by
  unfold List.Nodup at h ⊢
  rw [pairwise_map] at h ⊢
  refine pairwise_filterMap.mpr (h.imp ?_)
  intro a b hne a' ha b' hb heq
  have ha' := (uncover_eq_some.mp ha).1.1
  have hb' := (uncover_eq_some.mp hb).1.1
  rw [ha', hb', heq] at hne
  exact hne rfl

theorem uncovered_of_mem
    (h : e ∈ (es.filterMap (uncover p)).map (entryOf keysOnly)) : Uncovered p e := by
  obtain ⟨kv', hkv', rfl⟩ := mem_map.mp h
  obtain ⟨kv, -, hu⟩ := mem_filterMap.mp hkv'
  exact (entryOf_uncover hu).2

section Split

variable (s : Sorter Entry) {p : Key} {l : List Entry} (hl : ∀ e ∈ l, Uncovered p e)
include hl

theorem filter_passes_cover (h : delegateFilters p fs = some fs')
    (hclean : ∀ f ∈ fs, f.Clean) :
    (l.map (cover p)).filter (passes fs') = (l.filter (passes fs)).map (cover p) := by
  rw [filter_map]
  congr 1
  exact filter_congr fun e he => passes_cover h hclean (hl e he)

/-- The entries of the flat map that the query's prefix leaves, as the child answers for them
and as they are completed, are the answer of the whole query. -/
theorem naive_child (hq : q.Rewritable) (hkeys : (l.map Entry.key).Nodup) :
    let sp := prepareQuery p q
    naiveQueryApply s sp.naive (invertResults p ⟨window sp.child.offset sp.child.limit
        (orderBy s sp.child.orders ((l.map (cover p)).filter (passes sp.child.filters))), false⟩) =
      ⟨window q.offset q.limit (orderBy s q.orders (l.filter (passes q.filters))), false⟩ := by
  have hall (l : List Entry) : l.filter (inPrefix []) = l := filter_eq_self.mpr fun _ _ => rfl
  have hnone (l : List Entry) : l.filter (passes []) = l := filter_eq_self.mpr fun _ _ => rfl
  have hinvert {l' : List Entry} (hsub : l' ⊆ l) :
      invertResults p ⟨l'.map (cover p), false⟩ = ⟨l', false⟩ :=
    invertResults_cover fun e he => hl e (hsub he)
  dsimp only
  unfold prepareQuery Split.filters Split.orders
  cases ho : delegateOrders q.orders with
  | some os =>
    have hd := delegated ho
    cases hf : delegateFilters p q.filters with
    | some fs =>
      have hkeys' : ((l.filter (passes q.filters)).map Entry.key).Nodup :=
        hkeys.sublist (filter_sublist.map Entry.key)
      rw [filter_passes_cover hl hf (hq.clean hf), hd.orderBy_cover s hkeys', window_map, hinvert,
        naiveQueryApply_entries]
      · dsimp only
        rw [hall, hnone]
        rfl
      · intro e he
        have hmem := (window_sublist _ _ _).subset he
        exact filter_sublist.subset ((orderBy_perm s _ _).subset hmem)
    | none =>
      rw [hnone, hd.orderBy_cover s hkeys, window_zero, hinvert, naiveQueryApply_entries]
      · dsimp only
        rw [hall, hd.filter_orderBy s hkeys]
        rfl
      · exact (orderBy_perm s _ _).subset
  | none =>
    cases hf : delegateFilters p q.filters with
    | some fs =>
      rw [filter_passes_cover hl hf (hq.clean hf)]
      change naiveQueryApply s _ (invertResults p ⟨(l.filter (passes q.filters)).map (cover p), false⟩) = _
      rw [hinvert filter_sublist.subset, naiveQueryApply_entries]
      rw [hall, hnone]
    | none =>
      rw [hnone]
      change naiveQueryApply s _ (invertResults p ⟨l.map (cover p), false⟩) = _
      rw [hinvert (.refl l), naiveQueryApply_entries]
      rw [hall]

end Split

theorem prepareQuery_child :
    (prepareQuery p q).child.pre = (convertKey p (newKey q.pre)).string ∧
      (prepareQuery p q).child.keysOnly = q.keysOnly := by
  unfold prepareQuery Split.filters Split.orders
  split <;> split <;> exact ⟨rfl, rfl⟩

/-- A wrapped query is the query on the entries below the prefix, in the order the child has
them in. -/
theorem Wrapped.query_eq (s : Sorter Entry) (hp : p.Clean) (hq : q.Rewritable)
    (hes : (es.map (·.1)).Nodup) :
    query s p es q = Datastore.query s (es.filterMap (uncover p)) q := by
  obtain ⟨hpre, hkeysOnly⟩ := prepareQuery_child
  unfold query Datastore.query
  rw [naiveQueryApply_entries, naiveQueryApply_entries, hpre, hkeysOnly, filter_inPrefix hp]
  refine naive_child s ?_ hq ?_
  · intro e he
    exact uncovered_of_mem (filter_sublist.subset he)
  · exact (nodup_keys q.keysOnly (nodup_uncover hes)).sublist
      (filter_sublist.map Entry.key)

/-! ## Runs -/

/-- The calls for which the prefix cannot be noticed. -/
structure Call.Transparent (c : Call) : Prop where
  key : ∀ k, c.key? = some k → k ≠ Key.root
  query : ∀ q, c = .query q → q.Rewritable

section Runs

variable (s : Sorter Entry) {p : Key} {t : Store} (ht : t.Keyed) {c : Call}
  (hp : ∀ q, c = .query q → p.Clean) (hc : c.Transparent)
include hc

theorem flat_step : flat p (Wrapped.step p t c) = (flat p t).step c := by
  cases c with
  | put key value => exact flat_set (.inr (hc.key key rfl)) t
  | delete key => exact flat_erase (.inr (hc.key key rfl)) t
  | get key | has key | getSize key | query q => rfl

theorem outside_step : outside p (Wrapped.step p t c) = outside p t := by
  cases c with
  | put key value => exact outside_set (.inr (hc.key key rfl)) t
  | delete key => exact outside_erase (.inr (hc.key key rfl)) t
  | get key | has key | getSize key | query q => rfl

include hp ht

/-- The wrapped datastore answers a call as the flat map may answer it. -/
theorem answers_iff (a : Answer) : Wrapped.Answers s p t c a ↔ (flat p t).Answers s c a := by
  cases c with
  | put key value | delete key => exact .rfl
  | get key | has key | getSize key =>
    simp only [Wrapped.Answers, Store.Answers, get_flat (.inr (hc.key key rfl)) t]
  | query q =>
    have hq := hc.query q rfl
    have hsame {es : List (Key × Bytes)} (hes : es.Perm t.entries) :
        Wrapped.query s p es q = query s (es.filterMap (uncover p)) q :=
      Wrapped.query_eq s (hp q rfl) hq ((hes.map Prod.fst).nodup_iff.mpr ht)
    constructor
    · rintro ⟨es, hes, rfl⟩
      exact ⟨es.filterMap (uncover p), hes.filterMap (uncover p), by rw [hsame hes]⟩
    · rintro ⟨fs, hfs, rfl⟩
      obtain ⟨es, hes, rfl⟩ := exists_perm_filterMap (uncover p) t.entries hfs
      exact ⟨es, hes, by rw [hsame hes]⟩

end Runs

theorem Wrapped.keyed_step {t : Store} (h : t.Keyed) : (step p t c).Keyed := by
  cases c with
  | put key value => exact h.set _ value
  | delete key => exact h.erase _
  | get key | has key | getSize key | query q => exact h

/-- The child `t` holds the flat map `f` below the prefix and `o` outside. -/
structure Mirrors (p : Key) (o : List (Key × Bytes)) (t f : Store) : Prop where
  keyed : t.Keyed
  flat : f = flat p t
  outside : outside p t = o

section Simulation

variable (s : Sorter Entry) {p : Key} {o : List (Key × Bytes)}

theorem Mirrors.step {t f : Store} (h : Mirrors p o t f) (hc : c.Transparent) :
    Mirrors p o (Wrapped.step p t c) (f.step c) where
  keyed := Wrapped.keyed_step h.keyed
  flat := by rw [h.flat, flat_step hc]
  outside := (outside_step hc).trans h.outside

theorem Mirrors.forth (t f : Store) (c : Call) (a : Answer) (t' : Store)
    (hc : (∀ q, c = .query q → p.Clean) ∧ c.Transparent) (h : Mirrors p o t f)
    (hnext : Wrapped.Next s p t c a t') :
    ∃ f', Store.Next s f c a f' ∧ Mirrors p o t' f' := by
  obtain ⟨hans, rfl⟩ := hnext
  rw [answers_iff s h.keyed hc.1 hc.2, ← h.flat] at hans
  exact ⟨f.step c, ⟨hans, rfl⟩, h.step hc.2⟩

theorem Mirrors.back (f t : Store) (c : Call) (a : Answer) (f' : Store)
    (hc : (∀ q, c = .query q → p.Clean) ∧ c.Transparent) (h : Mirrors p o t f)
    (hnext : Store.Next s f c a f') :
    ∃ t', Wrapped.Next s p t c a t' ∧ Mirrors p o t' f' := by
  obtain ⟨hans, rfl⟩ := hnext
  rw [h.flat, ← answers_iff s h.keyed hc.1 hc.2] at hans
  exact ⟨Wrapped.step p t c, ⟨hans, rfl⟩, h.step hc.2⟩

end Simulation

/-- Calls with other keys than the root and, under a clean prefix, queries whose key filters keep
their meaning go through the wrapped datastore as if it were the flat map: each can follow the
other with the same answers. Nothing outside the prefix changes, and no result panics. -/
theorem wrapped_transparent (s : Sorter Entry) (p : Key) (t : Store) (ht : t.Keyed)
    (calls : List Call) (hp : ∀ q, .query q ∈ calls → p.Clean)
    (hcalls : ∀ c ∈ calls, c.Transparent) :
    (∀ as t', Possible (Wrapped.Next s p) t calls as t' →
      Possible (Store.Next s) (flat p t) calls as (flat p t') ∧ outside p t' = outside p t ∧
        ∀ a ∈ as, ∀ r, a = .results r → r.panics = false) ∧
    (∀ as f, Possible (Store.Next s) (flat p t) calls as f →
      ∃ t', Possible (Wrapped.Next s p) t calls as t' ∧ flat p t' = f) := by
  have hinit : Mirrors p (outside p t) t (flat p t) := ⟨ht, rfl, rfl⟩
  have hok : ∀ c ∈ calls, (∀ q, c = .query q → p.Clean) ∧ c.Transparent :=
    fun c hc => ⟨fun q hq => hp q (hq ▸ hc), hcalls c hc⟩
  constructor
  · intro as t' h
    obtain ⟨f, hf, hmirrors⟩ :=
      Possible.simulated _ (Mirrors p (outside p t)) (Mirrors.forth s) hok hinit h
    rw [hmirrors.flat] at hf
    refine ⟨hf, hmirrors.outside, Possible.forall_answers ?_ hf⟩
    rintro _ _ _ _ ⟨hans, -⟩ r rfl
    exact hans.panics
  · intro as f h
    obtain ⟨t', ht', hmirrors⟩ := Possible.simulated _ (fun f t₁ => Mirrors p (outside p t) t₁ f)
      (Mirrors.back s) hok hinit h
    exact ⟨t', ht', hmirrors.flat.symm⟩

section Instances

/-- `/p` -/
def namespaceKey : Key := newKey [slash, 0x70]

/-- `/p/abc` with a value, and `/q` outside the prefix. -/
def namespaceStore : Store :=
  ⟨[(newKey [slash, 0x70, slash, 0x61, 0x62, 0x63], [1]), (newKey [slash, 0x71], [2])]⟩

/-- Put and get `/x`, then ask for what begins with `/ab`, by value. -/
def namespaceCalls : List Call :=
  [.put (newKey [slash, 0x78]) [7], .get (newKey [slash, 0x78]),
    .query { filters := [.keyPrefix [slash, 0x61, 0x62]], orders := [.byValue], limit := 3 }]

theorem wrapped_transparent_namespace :
    namespaceKey.Clean ∧ namespaceStore.Keyed ∧ (∀ c ∈ namespaceCalls, c.Transparent) ∧
    (∀ as t', Possible (Wrapped.Next Sorter.insertion namespaceKey) namespaceStore namespaceCalls as
        t' →
      Possible (Store.Next Sorter.insertion) (flat namespaceKey namespaceStore) namespaceCalls as
          (flat namespaceKey t') ∧
        outside namespaceKey t' = outside namespaceKey namespaceStore ∧
        ∀ a ∈ as, ∀ r, a = .results r → r.panics = false) := by
  have hclean : namespaceKey.Clean := by decide +kernel
  have hkeyed : namespaceStore.Keyed := by decide +kernel
  have hne : newKey [slash, 0x78] ≠ root := by decide +kernel
  have hcalls : ∀ c ∈ namespaceCalls, c.Transparent := by
    simp only [namespaceCalls, forall_mem_cons]
    refine ⟨⟨?_, by simp⟩, ⟨?_, by simp⟩, ⟨by simp [Call.key?], ?_⟩, by simp⟩
    · rintro k ⟨⟩
      exact hne
    · rintro k ⟨⟩
      exact hne
    · rintro q ⟨⟩
      right
      rw [forall_mem_singleton]
      right
      decide +kernel
  exact ⟨hclean, hkeyed, hcalls,
    (wrapped_transparent .insertion namespaceKey namespaceStore hkeyed namespaceCalls
      (fun _ _ => hclean) hcalls).1⟩

/-- Keys that begin with `/ab/`. -/
def slashQuery : Query := { filters := [.keyPrefix [slash, 0x61, 0x62, slash]] }

/-- `/a//b`, which `RawKey` lets through. -/
def uncleanKey : Key := ⟨[slash, 0x61, slash, slash, 0x62], by decide⟩

/-- A filter for `/ab/` finds `/abc` in the wrapped datastore and nothing in the flat map, and
under the prefix `/a//b` the entry `/a/b/x` outside it makes a query panic. -/
theorem slash_filter_differs :
    (¬ ∀ as t', Possible (Wrapped.Next Sorter.insertion namespaceKey) namespaceStore
        [.query slashQuery] as t' →
      Possible (Store.Next Sorter.insertion) (flat namespaceKey namespaceStore) [.query slashQuery] as
        (flat namespaceKey t')) ∧
    Wrapped.query Sorter.insertion uncleanKey
      [(newKey [slash, 0x61, slash, 0x62, slash, 0x78], [1])] {} = ⟨[], true⟩ := by
  refine ⟨fun h => ?_, by decide +kernel⟩
  have hwrapped : Wrapped.query .insertion namespaceKey namespaceStore.entries slashQuery =
      ⟨[⟨[slash, 0x61, 0x62, 0x63], [1], 1⟩], false⟩ := by decide +kernel
  have hflat : (flat namespaceKey namespaceStore).entries =
      [(newKey [slash, 0x61, 0x62, 0x63], [1])] := by decide +kernel
  have hanswer : Possible (Wrapped.Next .insertion namespaceKey) namespaceStore
      [.query slashQuery] [.results ⟨[⟨[slash, 0x61, 0x62, 0x63], [1], 1⟩], false⟩]
      namespaceStore :=
    ⟨_, [], _, rfl, ⟨⟨_, .refl _, by rw [hwrapped]⟩, rfl⟩, rfl, rfl⟩
  obtain ⟨r, rs, f, heq, ⟨⟨es, hes, hr⟩, -⟩, -⟩ := h _ _ hanswer
  rw [hflat, perm_singleton] at hes
  rw [hes] at hr
  have hresults := (cons.inj heq).1.trans hr
  revert hresults
  decide +kernel

end Instances

end Dep2p.Datastore
