import Dep2p.Datastore.MapStore

/- Keys and entries under a prefix.

   A datastore that puts a prefix before the keys of another one sees the other's entries
   with longer keys. `cover` is that view of an entry; the prefix of a query and the orders
   by keys and values say the same about an entry and about its view.

   Correspondence (Go ↔ Lean):
     `PrefixTransform.ConvertKey`, `Prefix.Child`     ↔ `convertKey` -/
namespace Dep2p.Datastore

open Lib List Key

variable (p k : Key)

def convertKey : Key := p.child k

/-- A key that some key below the prefix is the conversion of: any under the root, and any
but the root itself under another prefix. -/
def Convertible : Prop := p = Key.root ∨ k ≠ Key.root

theorem rawKey_string : rawKey k.string = .ok k := by
  rw [rawKey, if_neg k.string_ne_nil, dif_pos k.wellFormed]

/-- What the conversion puts before a key. -/
def lead : Bytes := if p = Key.root then [] else p.string

variable {k : Key} {c a b : Key}

theorem convertKey_string {p : Key} (hk : Convertible p k) :
    (convertKey p k).string = lead p ++ k.string := by
  unfold convertKey lead
  by_cases hp : p = root
  · rw [if_pos hp, hp, child_root, nil_append]
  · rw [if_neg hp, child_of_ne hp (hk.resolve_left hp)]

theorem convertKey_string_lead {p : Key} (hp : p ≠ root) :
    (convertKey p c).string = lead p ++ lead c := by
  by_cases hc : c = root
  · rw [hc, convertKey, child, if_neg hp, dif_pos rfl, lead, lead, if_neg hp, if_pos rfl,
      append_nil]
  · rw [convertKey_string (.inr hc), lead, lead, if_neg hc]

def cover (e : Entry) : Entry := { e with key := lead p ++ e.key }

/-- An entry of a flat map. -/
def Uncovered (e : Entry) : Prop := ∃ k, e.key = k.string ∧ Convertible p k

/-! ## Ancestors -/

theorem lead_injective (h : lead a = lead b) : a = b := by
  unfold lead at h
  split at h <;> split at h
  · rename_i ha hb
    rw [ha, hb]
  · exact absurd h.symm b.string_ne_nil
  · exact absurd h a.string_ne_nil
  · exact ext h

theorem lead_of_ne (h : k ≠ root) : lead k = k.string := if_neg h

variable {m : Key} {r : Key}

/-- The ancestors of a key that is not the root are those it begins with. -/
theorem isAncestorOf_iff_lead (hk : k ≠ root) :
    m.isAncestorOf k = true ↔ (lead m ++ [slash]) <+: k.string := by
  obtain ⟨s, hs⟩ := k.string_cons
  by_cases hm : m = root
  · rw [hm, root_isAncestorOf, hs]
    simp [lead, hk]
  · rw [isAncestorOf_iff hm, lead_of_ne hm]
    constructor
    · rintro ⟨rest, -, hrest⟩
      obtain ⟨s', hs'⟩ := rest.string_cons
      exact ⟨s', by rw [hrest, hs', append_assoc, singleton_append]⟩
    · rintro ⟨s', hs'⟩
      rw [append_assoc, singleton_append] at hs'
      obtain ⟨rest, hrest, hstring⟩ := exists_rest m.string_ne_nil hs'.symm
      exact ⟨rest, hrest, by rw [hstring, hs']⟩

theorem ne_root_of_isAncestorOf (h : m.isAncestorOf k = true) : k ≠ root := by
  rintro rfl
  unfold isAncestorOf at h
  have hlen : root.string.length ≤ m.string.length := length_pos_iff.mpr m.string_ne_nil
  rw [if_pos hlen] at h
  cases h

theorem isAncestorOf_trans (hab : a.isAncestorOf b = true)
    (hbc : b.isAncestorOf c = true) : a.isAncestorOf c = true := by
  have hb := ne_root_of_isAncestorOf hab
  have hc := ne_root_of_isAncestorOf hbc
  rw [isAncestorOf_iff_lead hb] at hab
  rw [isAncestorOf_iff_lead hc, lead_of_ne hb] at hbc
  rw [isAncestorOf_iff_lead hc]
  exact (hab.trans (prefix_append b.string [slash])).trans hbc

/-- Two ancestors of one key are one above the other. -/
theorem isAncestorOf_comparable (ha : a.isAncestorOf k = true)
    (hb : b.isAncestorOf k = true) : a = b ∨ a.isAncestorOf b = true ∨ b.isAncestorOf a = true := by
  have hk := ne_root_of_isAncestorOf ha
  rw [isAncestorOf_iff_lead hk] at ha hb
  have hstep {x y : Key} (h : (lead x ++ [slash]) <+: lead y ++ [slash]) :
      x = y ∨ x.isAncestorOf y = true := by
    rcases prefix_concat_iff.mp h with heq | hpre
    · exact .inl (lead_injective (append_cancel_right heq))
    · have hy : y ≠ root := by
        rintro rfl
        have hnil : lead x ++ [slash] = [] := prefix_nil.mp hpre
        simp at hnil
      rw [lead_of_ne hy] at hpre
      exact .inr ((isAncestorOf_iff_lead hy).mpr hpre)
  rcases prefix_or_prefix_of_prefix ha hb with h | h
  · rcases hstep h with heq | hanc
    · exact .inl heq
    · exact .inr (.inl hanc)
  · rcases hstep h with heq | hanc
    · exact .inl heq.symm
    · exact .inr (.inr hanc)

theorem convertKey_ne_root (hr : r ≠ root) : convertKey m r ≠ root := by
  by_cases hm : m = root
  · rw [hm]
    exact hr
  · intro h
    have hstring := convertKey_string_lead (c := r) hm
    have hlen := congrArg length hstring
    rw [h, lead_of_ne hm, lead_of_ne hr, length_append] at hlen
    have hm1 := length_pos_iff.mpr m.string_ne_nil
    have hr1 := length_pos_iff.mpr r.string_ne_nil
    simp only [root, length_cons, length_nil] at hlen
    omega

theorem lead_convertKey : lead (convertKey m r) = lead m ++ lead r := by
  by_cases hm : m = root
  · rw [hm]
    rfl
  · by_cases hr : r = root
    · have hconv : convertKey m r = m := by
        rw [hr, convertKey, child, if_neg hm, dif_pos rfl]
      rw [hconv, hr, lead, lead, if_pos rfl, append_nil]
    · rw [lead_of_ne (convertKey_ne_root hr), convertKey_string_lead hm]

/-- The same prefix before two keys does not change which is the ancestor. -/
theorem isAncestorOf_convertKey (hr : r ≠ root) :
    (convertKey m a).isAncestorOf (convertKey m r) = true ↔ a.isAncestorOf r = true := by
  rw [isAncestorOf_iff_lead (convertKey_ne_root hr), isAncestorOf_iff_lead hr, lead_convertKey,
    convertKey_string (.inr hr), append_assoc, prefix_append_right_inj]

/-! ## Prefixes of queries -/

theorem prefixFilter_newKey (pre : Bytes) : prefixFilter (newKey pre).string = prefixFilter pre := by
  have hne : (newKey pre).string ≠ [] := string_ne_nil _
  have hclean : clean (newKey pre).string = clean pre := clean_clean pre
  have hempty : pre = [] → clean pre = [slash] := by
    rintro rfl
    rfl
  unfold prefixFilter
  rw [hclean]
  by_cases h : clean pre = [slash]
  · simp [h]
  · have hpre : pre ≠ [] := fun he => h (hempty he)
    simp [hpre, hne]

theorem prefixFilter_of_clean (h : k.Clean) :
    prefixFilter k.string = if k = root then none else some (.keyPrefix (k.string ++ [slash])) := by
  have hclean : clean k.string = k.string := congrArg string h
  unfold prefixFilter
  rw [hclean]
  by_cases hk : k = root
  · have hroot : k.string = [slash] := congrArg string hk
    rw [if_pos hk, if_pos (.inr hroot)]
  · rw [if_neg hk, if_neg]
    rintro (hnil | hroot)
    · exact k.string_ne_nil hnil
    · exact hk (ext hroot)

theorem isPrefixOf_append (p a b : Bytes) : (p ++ a).isPrefixOf (p ++ b) = a.isPrefixOf b := by
  induction p with
  | nil => rfl
  | cons x xs ih => simp [ih]

/-- The filter for the child's prefix, under a prefix that is not the root. -/
theorem prefixFilter_convertKey {p : Key} (hp : p.Clean) (hc : c.Clean) (hne : p ≠ root) :
    prefixFilter (convertKey p c).string = some (.keyPrefix (lead p ++ (lead c ++ [slash]))) := by
  have hstring := convertKey_string_lead (c := c) hne
  have hclean : (convertKey p c).Clean := hp.child hc
  have hroot : convertKey p c ≠ root := by
    intro h
    rw [h, lead, if_neg hne, lead] at hstring
    have hlen := congrArg length hstring
    split at hlen
    · exact hne (ext (by rw [hstring, if_pos ‹_›, append_nil]))
    have hp1 := length_pos_iff.mpr p.string_ne_nil
    have hc1 := length_pos_iff.mpr c.string_ne_nil
    simp only [root, length_append, length_cons, length_nil] at hlen
    omega
  rw [prefixFilter_of_clean hclean, if_neg hroot, hstring, append_assoc]

/-- The child's prefix lets the conversions of those entries through that the query's own
prefix lets through. -/
theorem inPrefix_cover {p : Key} (hp : p.Clean) (pre : Bytes) {e : Entry} (he : Uncovered p e) :
    inPrefix (convertKey p (newKey pre)).string (cover p e) = inPrefix pre e := by
  have hnew := clean_newKey pre
  unfold inPrefix
  rw [← prefixFilter_newKey pre]
  by_cases hroot : p = root
  · have hcover : cover p e = e := by
      rw [cover, lead, if_pos hroot, nil_append]
    rw [hcover, hroot, convertKey, child_root]
  · rw [prefixFilter_convertKey hp hnew hroot, prefixFilter_of_clean hnew]
    change (lead p ++ (lead (newKey pre) ++ [slash])).isPrefixOf (lead p ++ e.key) = _
    rw [isPrefixOf_append, lead]
    split
    · obtain ⟨k, hk, -⟩ := he
      obtain ⟨rest, hrest⟩ := k.string_cons
      rw [hk, hrest]
      simp
    · rfl

/-- A clean prefix lets through what is below it. -/
theorem inPrefix_iff {p : Key} (hp : p.Clean) (hk : k ≠ root) (keysOnly : Bool) (v : Bytes) :
    inPrefix p.string (entryOf keysOnly (k, v)) = true ↔ p.isAncestorOf k = true := by
  rw [isAncestorOf_iff_lead hk]
  unfold inPrefix
  rw [prefixFilter_of_clean hp]
  split
  · rename_i hroot
    obtain ⟨s, hs⟩ := k.string_cons
    simp [hroot, lead, hs]
  · rename_i hroot
    rw [lead_of_ne hroot]
    exact isPrefixOf_iff_prefix

/-! ## Orders -/

theorem compareBytes_append (p a b : Bytes) : compareBytes (p ++ a) (p ++ b) = compareBytes a b := by
  unfold compareBytes
  simp [append_lt_append_iff]

theorem less_cover {orders : List Order} (h : ∀ o ∈ orders, o.isPlain = true) (a b : Entry) :
    less orders (cover p a) (cover p b) = less orders a b := by
  have hcompare (o : Order) (ho : o.isPlain = true) :
      o.compare (cover p a) (cover p b) = o.compare a b := by
    cases o with
    | byValue | byValueDescending => rfl
    | byKey => exact compareBytes_append _ _ _
    | byKeyDescending => exact congrArg Neg.neg (compareBytes_append _ _ _)
    | other cmp => cases ho
  induction orders with
  | nil => simp [less, cover, append_lt_append_iff]
  | cons o os ih =>
    obtain ⟨ho, hos⟩ := forall_mem_cons.mp h
    rw [less, less, hcompare o ho, ih hos]

end Dep2p.Datastore
