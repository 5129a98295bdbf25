import Dep2p.Datastore.Mount

/- Queries over mounted datastores.

   The entries that the mounts give for a query are those of one flat map that the query's
   prefix lets through, whichever mounts are nested in which: a mount that is left out holds
   no key below the prefix, because an earlier one that is above the prefix masks it
   (`lookupAll_iff`). The merged streams are then a rearrangement of the flat map's entries,
   and for orders by keys and values the sorted one. -/
namespace Dep2p.Datastore.Mount

open Lib List Key

variable {p m rest r : Key} {e : Entry} {es : List (Key × Bytes)}

/-! ## Which mounts are asked -/

theorem fst_lookupAll_sublist (mounts : List Key) :
    ((lookupAll mounts p).map (·.1)).Sublist mounts := by
  induction mounts with
  | nil => exact .refl _
  | cons m ms ih =>
    rw [lookupAll]
    split
    · exact ih.cons_cons m
    · split
      · exact (nil_sublist ms).cons_cons m
      · exact ih.cons m

variable {mounts : List Key}

theorem mem_of_mem_lookupAll (h : (m, rest) ∈ lookupAll mounts p) : m ∈ mounts :=
  (fst_lookupAll_sublist mounts).subset (mem_map.mpr ⟨(m, rest), h, rfl⟩)

/-- What a mount at a prefix or above it is asked for. -/
theorem convertKey_rest (hp : p.Clean) (h : m = p ∨ m.isAncestorOf p = true) :
    p = convertKey m (newKey (trimPrefix p.string m.string)) := by
  rcases h with rfl | h
  · have htrim : trimPrefix m.string m.string = [] := by
      have happ := trimPrefix_append [] m.string
      rwa [append_nil] at happ
    have hroot : newKey (trimPrefix m.string m.string) = root := by
      rw [htrim]
      rfl
    rw [hroot, convertKey, child]
    split
    · assumption
    · rw [dif_pos rfl]
  · exact (rest_of_ancestor hp h).1

/-- A key below the prefix is asked for at its mount, and nothing else is. -/
theorem lookupAll_iff (hnodup : mounts.Nodup) {key : Key} (hp : p.Clean)
    (hfind : mounts.find? (·.isAncestorOf key) = some m) (hkey : key = convertKey m r)
    (hr : r ≠ root) :
    p.isAncestorOf key = true ↔
      ∃ rest, (m, rest) ∈ lookupAll mounts p ∧ rest.isAncestorOf r = true := by
  induction mounts with
  | nil => cases hfind
  | cons m₀ ms ih =>
    obtain ⟨hm₀, hms⟩ := nodup_cons.mp hnodup
    rw [find?_cons] at hfind
    rw [lookupAll]
    cases hanc : m₀.isAncestorOf key with
    | true =>
      rw [hanc] at hfind
      obtain rfl : m₀ = m := Option.some.inj hfind
      split
      · rename_i hdesc
        refine ⟨fun _ => ⟨root, mem_cons_self, root_isAncestorOf.mpr hr⟩, fun _ => ?_⟩
        exact isAncestorOf_trans hdesc hanc
      · rename_i hdesc
        split
        · rename_i habove
          have hrest := convertKey_rest hp habove
          constructor
          · intro h
            refine ⟨_, mem_cons_self, (isAncestorOf_convertKey (m := m₀) hr).mp ?_⟩
            rwa [← hrest, ← hkey]
          · rintro ⟨rest, hmem, hlow⟩
            obtain rfl := (Prod.mk.inj (mem_singleton.mp hmem)).2
            rw [hrest, hkey]
            exact (isAncestorOf_convertKey hr).mpr hlow
        · rename_i habove
          obtain ⟨hne, hnot⟩ := not_or.mp habove
          constructor
          · intro h
            rcases isAncestorOf_comparable hanc h with heq | hup | hdown
            · exact absurd heq hne
            · exact absurd hup hnot
            · exact absurd hdown hdesc
          · rintro ⟨rest, hmem, -⟩
            exact absurd (mem_of_mem_lookupAll hmem) hm₀
    | false =>
      rw [hanc] at hfind
      have hrest := ih hms hfind
      have hm : m ≠ m₀ := by
        rintro rfl
        have hm := find?_some hfind
        rw [hanc] at hm
        cases hm
      split
      · rw [hrest]
        simp [hm]
      · split
        · rename_i habove
          constructor
          · intro h
            have hkey₀ : m₀.isAncestorOf key = true := by
              rcases habove with rfl | habove
              · exact h
              · exact isAncestorOf_trans habove h
            rw [hanc] at hkey₀
            cases hkey₀
          · rintro ⟨rest, hmem, -⟩
            exact absurd (Prod.mk.inj (mem_singleton.mp hmem)).1 hm
        · exact hrest

/-! ## The streams -/

/-- What one mount gives, under the keys it has outside. -/
def streamEntries (s : Sorter Entry) (es : List (Key × Bytes)) (q : Query) (m rest : Key) :
    List Entry :=
  (orderBy s q.orders ((es.map (entryOf q.keysOnly)).filter (inPrefix rest.string))).map (cover m)

theorem mapM_ok {ε α β : Type} {f : α → Except ε β} {g : α → β} {l : List α}
    (h : ∀ a ∈ l, f a = .ok (g a)) : l.mapM f = .ok (l.map g) := by
  induction l with
  | nil => rfl
  | cons a l ih =>
    obtain ⟨ha, hl⟩ := forall_mem_cons.mp h
    rw [mapM_cons, ha, ih hl]
    rfl

theorem mountEntry_eq (h : Uncovered m e) :
    mountEntry m e = .ok (cover m e) := by
  obtain ⟨k, hk, hconv⟩ := h
  unfold mountEntry
  rw [hk, rawKey_string]
  change Except.ok { e with key := (convertKey m k).string } = _
  rw [convertKey_string hconv, ← hk]
  rfl

variable {s : Sorter Entry}

theorem stream_eq (hes : ∀ kv ∈ es, kv.1 ≠ root) (q : Query) :
    stream s es q m rest = .ok (streamEntries s es q m rest) := by
  unfold stream streamEntries Datastore.query
  rw [naiveQueryApply_entries]
  have hall (l : List Entry) : l.filter (passes []) = l := filter_eq_self.mpr fun _ _ => rfl
  rw [hall]
  refine mapM_ok fun e he => mountEntry_eq ?_
  have hmem := filter_sublist.subset ((orderBy_perm s _ _).subset he)
  obtain ⟨kv, hkv, rfl⟩ := mem_map.mp hmem
  exact ⟨kv.1, rfl, .inr (hes kv hkv)⟩

/-! ## The flat map -/

theorem clean_of_mem_lookupAll (h : (m, rest) ∈ lookupAll mounts p) : rest.Clean := by
  induction mounts with
  | nil => cases h
  | cons m₀ ms ih =>
    rw [lookupAll] at h
    split at h
    · rcases mem_cons.mp h with heq | h
      · rw [(Prod.mk.inj heq).2]
        exact clean_newKey _
      · exact ih h
    · split at h
      · rw [(Prod.mk.inj (mem_singleton.mp h)).2]
        exact clean_newKey _
      · exact ih h

theorem entryOf_convertKey (hr : r ≠ root) (keysOnly : Bool) (v : Bytes) :
    entryOf keysOnly (convertKey m r, v) = cover m (entryOf keysOnly (r, v)) := by
  simp [entryOf, cover, convertKey_string (.inr hr : Convertible m r)]

theorem mem_streamEntries {q : Query} : e ∈ streamEntries s es q m rest ↔
      ∃ r v, (r, v) ∈ es ∧ inPrefix rest.string (entryOf q.keysOnly (r, v)) = true ∧
        e = cover m (entryOf q.keysOnly (r, v)) := by
  unfold streamEntries
  rw [mem_map]
  constructor
  · rintro ⟨e', he', rfl⟩
    obtain ⟨hmem, hpre⟩ := mem_filter.mp ((orderBy_perm s _ _).subset he')
    obtain ⟨⟨r, v⟩, hrv, rfl⟩ := mem_map.mp hmem
    exact ⟨r, v, hrv, hpre, rfl⟩
  · rintro ⟨r, v, hrv, hpre, rfl⟩
    refine ⟨_, (orderBy_perm s _ _).symm.subset (mem_filter.mpr ⟨?_, hpre⟩), rfl⟩
    exact mem_map.mpr ⟨(r, v), hrv, rfl⟩

section Flat

variable (s : Sorter Entry) {mounts : List Key} (hnodup : mounts.Nodup) {n : Table Key Store}
  {t : Store} (h : Spread (route mounts) Key.Clean n t) (ht : t.Keyed)
  (hn : ∀ m, (n.row m).Keyed) {enum : Key → List (Key × Bytes)}
  (henum : ∀ m, (enum m).Perm (n.row m).entries) (q : Query)

/-- What all mounts give. -/
def gathered (mounts : List Key) (enum : Key → List (Key × Bytes)) : List (List Entry) :=
  (lookupAll mounts (newKey q.pre)).map fun t => streamEntries s (enum t.1) q t.1 t.2

include h ht hn henum

/-- An entry of a mounted map and the key it is reached by. -/
theorem key_of_mem {v : Bytes} (hmem : (r, v) ∈ enum m) :
    ∃ k, k.Clean ∧ route mounts k = some (m, r) ∧ (k, v) ∈ t.entries := by
  have hrow := (hn m).mem_iff.mp ((henum m).subset hmem)
  obtain ⟨k, hk, hroute, hget⟩ := h.get_of_row hrow
  exact ⟨k, hk, hroute, ht.mem_iff.mpr hget⟩

theorem mem_of_key {k : Key} {v : Bytes} (hmem : (k, v) ∈ t.entries) :
    k.Clean ∧ ∃ m r, route mounts k = some (m, r) ∧ (r, v) ∈ enum m := by
  obtain ⟨hk, m, r, hroute, hrow⟩ := h.row_of_get (ht.mem_iff.mp hmem)
  exact ⟨hk, m, r, hroute, (henum m).symm.subset ((hn m).mem_iff.mpr hrow)⟩

theorem enum_ne_root (m : Key) : ∀ kv ∈ enum m, kv.1 ≠ root := by
  rintro ⟨r, v⟩ hmem
  obtain ⟨k, hk, hroute, -⟩ := key_of_mem h ht hn henum hmem
  exact (route_eq_some hk hroute).2.2.1

include hnodup

/-- The mounts give the entries of the flat map that the query's prefix lets through. -/
theorem mem_gathered : e ∈ (gathered s q mounts enum).flatten ↔
    e ∈ (t.entries.map (entryOf q.keysOnly)).filter (inPrefix q.pre) := by
  have hpre (e : Entry) : inPrefix q.pre e = inPrefix (newKey q.pre).string e := by
    unfold inPrefix
    rw [prefixFilter_newKey]
  have hnew := clean_newKey q.pre
  rw [mem_flatten, mem_filter, mem_map]
  constructor
  · rintro ⟨l, hl, he⟩
    obtain ⟨⟨m, rest⟩, hmem, rfl⟩ := mem_map.mp hl
    obtain ⟨r, v, hrv, hin, rfl⟩ := mem_streamEntries.mp he
    obtain ⟨k, hk, hroute, hkv⟩ := key_of_mem h ht hn henum hrv
    obtain ⟨hfind, rfl, hr, -⟩ := route_eq_some hk hroute
    have hlow := (inPrefix_iff (clean_of_mem_lookupAll hmem) hr _ _).mp hin
    refine ⟨⟨_, hkv, entryOf_convertKey hr _ _⟩, ?_⟩
    rw [← entryOf_convertKey hr, hpre, inPrefix_iff hnew (convertKey_ne_root hr),
      lookupAll_iff hnodup hnew hfind rfl hr]
    exact ⟨rest, hmem, hlow⟩
  · rintro ⟨⟨⟨k, v⟩, hkv, rfl⟩, hin⟩
    obtain ⟨hk, m, r, hroute, hrv⟩ := mem_of_key h ht hn henum hkv
    obtain ⟨hfind, rfl, hr, -⟩ := route_eq_some hk hroute
    rw [hpre, inPrefix_iff hnew (convertKey_ne_root hr), lookupAll_iff hnodup hnew hfind rfl hr] at hin
    obtain ⟨rest, hmem, hlow⟩ := hin
    refine ⟨_, mem_map.mpr ⟨(m, rest), hmem, rfl⟩, mem_streamEntries.mpr ⟨r, v, hrv, ?_, ?_⟩⟩
    · exact (inPrefix_iff (clean_of_mem_lookupAll hmem) hr _ _).mpr hlow
    · exact entryOf_convertKey hr _ _

omit hnodup h ht in
/-- The keys one mount gives differ. -/
theorem nodup_streamEntries (m : Key) :
    ((streamEntries s (enum m) q m rest).map Entry.key).Nodup := by
  have hkeys : ((enum m).map (·.1)).Nodup := ((henum m).map Prod.fst).nodup_iff.mpr (hn m)
  have hsub : (((enum m).map (entryOf q.keysOnly)).filter (inPrefix rest.string)).Sublist
      ((enum m).map (entryOf q.keysOnly)) := filter_sublist
  have hentries := (nodup_keys q.keysOnly hkeys).sublist (hsub.map Entry.key)
  have hordered := ((orderBy_perm s q.orders _).map Entry.key).nodup_iff.mpr hentries
  have hcover : (streamEntries s (enum m) q m rest).map Entry.key =
      ((orderBy s q.orders (((enum m).map (entryOf q.keysOnly)).filter
        (inPrefix rest.string))).map Entry.key).map (lead m ++ ·) := by
    simp [streamEntries, cover, Function.comp_def]
  rw [hcover]
  exact hordered.map fun _ _ => append_cancel_left

theorem nodup_gathered : (gathered s q mounts enum).flatten.Nodup := by
  refine nodup_flatten.mpr ⟨fun l hl => ?_, ?_⟩
  · obtain ⟨⟨m, rest⟩, -, rfl⟩ := mem_map.mp hl
    exact (nodup_streamEntries s hn henum q m).of_map
  · have hmounts : ((lookupAll mounts (newKey q.pre)).map (·.1)).Nodup :=
      hnodup.sublist (fst_lookupAll_sublist _)
    refine pairwise_map.mpr ((pairwise_map.mp hmounts).imp ?_)
    rintro ⟨m, rest⟩ ⟨m', rest'⟩ hne e he he'
    -- one key would have two routes
    obtain ⟨r, v, hrv, -, rfl⟩ := mem_streamEntries.mp he
    obtain ⟨r', v', hrv', -, heq⟩ := mem_streamEntries.mp he'
    obtain ⟨k, hk, hroute, -⟩ := key_of_mem h ht hn henum hrv
    obtain ⟨k', hk', hroute', -⟩ := key_of_mem h ht hn henum hrv'
    obtain ⟨-, rfl, hr, -⟩ := route_eq_some hk hroute
    obtain ⟨-, rfl, hr', -⟩ := route_eq_some hk' hroute'
    rw [← entryOf_convertKey hr, ← entryOf_convertKey hr'] at heq
    have hkeys : convertKey m r = convertKey m' r' := ext (congrArg Entry.key heq)
    rw [hkeys, hroute'] at hroute
    exact hne (Prod.mk.inj (Option.some.inj hroute)).1.symm

theorem gathered_perm : (gathered s q mounts enum).flatten.Perm
    ((t.entries.map (entryOf q.keysOnly)).filter (inPrefix q.pre)) := by
  have hentries : (t.entries.map (entryOf q.keysOnly)).Nodup := (nodup_keys q.keysOnly ht).of_map
  exact (perm_ext_iff_of_nodup (nodup_gathered s hnodup h ht hn henum q)
    (hentries.filter _)).mpr fun _ => mem_gathered s hnodup h ht hn henum q

end Flat

/-! ## The merged answer -/

theorem naiveLimit_naiveOffset_pos (l : List Entry) (offset limit : Int) :
    (let r : Results := if 0 < offset then naiveOffset ⟨l, false⟩ offset else ⟨l, false⟩
     if 0 < limit then naiveLimit r limit else r) = ⟨window offset limit l, false⟩ := by
  rw [← naiveLimit_naiveOffset]
  have hoffset : (if 0 < offset then naiveOffset ⟨l, false⟩ offset else (⟨l, false⟩ : Results)) =
      if offset ≠ 0 then naiveOffset ⟨l, false⟩ offset else ⟨l, false⟩ := by
    rcases lt_trichotomy offset 0 with hneg | hzero | hpos
    · have hnat : offset.toNat = 0 := Int.toNat_of_nonpos hneg.le
      rw [if_neg (by omega), if_pos (by omega), naiveOffset, hnat, drop_zero]
    · rw [if_neg (by omega), if_neg (by omega)]
    · rw [if_pos hpos, if_pos (by omega)]
  rw [hoffset]
  rcases lt_trichotomy limit 0 with hneg | hzero | hpos
  · rw [if_neg (by omega), if_pos (show limit ≠ 0 by omega), naiveLimit,
      if_pos hneg.le]
  · rw [if_neg (by omega), if_neg (show ¬ limit ≠ 0 by omega)]
  · rw [if_pos hpos, if_pos (show limit ≠ 0 by omega)]

/-- The entries with an order of their keys or values are merged in that order. -/
theorem streamEntries_sorted {q : Query} (hplain : ∀ o ∈ q.orders, o.isPlain = true)
    (hne : q.orders ≠ []) (hes : (es.map (·.1)).Nodup) :
    (streamEntries s es q m rest).Pairwise fun a b => rank q.orders a ≤ rank q.orders b := by
  have hkeys := nodup_keys q.keysOnly hes
  have hsub : ((es.map (entryOf q.keysOnly)).filter (inPrefix rest.string)).Sublist
      (es.map (entryOf q.keysOnly)) := filter_sublist
  have hsorted := s.sorted (less q.orders) _ (strictOn_less hplain (hkeys.sublist (hsub.map Entry.key)))
  unfold streamEntries orderBy
  rw [if_neg (by simpa using hne), pairwise_map]
  refine hsorted.imp fun {a b} hlt => ?_
  rw [← less_cover m hplain, less_iff hplain] at hlt
  exact hlt.le

section Answer

variable (s : Sorter Entry) {mounts : List Key} (hnodup : mounts.Nodup) {n : Table Key Store}
  {t : Store} (h : Spread (route mounts) Key.Clean n t) (ht : t.Keyed)
  (hn : ∀ m, (n.row m).Keyed) {enum : Key → List (Key × Bytes)}
  (henum : ∀ m, (enum m).Perm (n.row m).entries) {q : Query}

include h ht hn henum in
theorem query_eq : query s mounts enum q =
    ⟨window q.offset q.limit ((Merge.merge (rank q.orders) (gathered s q mounts enum)).filter
      (passes q.filters)), false⟩ := by
  have hstreams : (lookupAll mounts (newKey q.pre)).mapM (fun t => stream s (enum t.1) q t.1 t.2) =
      .ok (gathered s q mounts enum) :=
    mapM_ok fun t _ => stream_eq (enum_ne_root h ht hn henum t.1) q
  unfold query
  rw [hstreams]
  dsimp only
  rw [foldl_naiveFilter]
  exact naiveLimit_naiveOffset_pos _ _ _

variable (hplain : ∀ o ∈ q.orders, o.isPlain = true)
include hnodup h ht hn henum hplain

/-- With orders, the merged entries are the sorted ones of the flat map. -/
theorem merge_eq_sort (hne : q.orders ≠ []) (hes : es.Perm t.entries) :
    Merge.merge (rank q.orders) (gathered s q mounts enum) =
      s.sort (less q.orders) ((es.map (entryOf q.keysOnly)).filter (inPrefix q.pre)) := by
  have hflat : (Merge.merge (rank q.orders) (gathered s q mounts enum)).Perm
      ((es.map (entryOf q.keysOnly)).filter (inPrefix q.pre)) :=
    (Merge.merge_perm _ _).trans ((gathered_perm s hnodup h ht hn henum q).trans
      ((hes.map _).filter _).symm)
  have hkeys : (((es.map (entryOf q.keysOnly)).filter (inPrefix q.pre)).map Entry.key).Nodup :=
    (nodup_keys q.keysOnly ((hes.map Prod.fst).nodup_iff.mpr ht)).sublist
      (filter_sublist.map Entry.key)
  have hle : (Merge.merge (rank q.orders) (gathered s q mounts enum)).Pairwise fun a b =>
      rank q.orders a ≤ rank q.orders b := by
    refine Merge.merge_sorted fun xs hxs => ?_
    obtain ⟨tr, -, rfl⟩ := mem_map.mp hxs
    exact streamEntries_sorted hplain hne (((henum tr.1).map Prod.fst).nodup_iff.mpr (hn tr.1))
  have hne' := pairwise_map.mp ((hflat.map Entry.key).nodup_iff.mpr hkeys)
  refine s.eq_sort (strictOn_less hplain hkeys) hflat ((hle.and hne').imp ?_)
  rintro a b ⟨hab, hkey⟩
  rw [less_iff hplain]
  exact lt_of_le_of_ne hab fun heq => hkey (key_eq_of_rank heq)

/-- The mounts answer a query as the flat map may answer it, and with orders exactly as it
does. -/
theorem query_answers :
    (∃ es, es.Perm t.entries ∧ query s mounts enum q = Datastore.query s es q) ∧
      (q.orders ≠ [] → ∀ es, es.Perm t.entries → query s mounts enum q = Datastore.query s es q) := by
  have hsorted (hne : q.orders ≠ []) (es : List (Key × Bytes)) (hes : es.Perm t.entries) :
      query s mounts enum q = Datastore.query s es q := by
    have hkeys : (((es.map (entryOf q.keysOnly)).filter (inPrefix q.pre)).map Entry.key).Nodup :=
      (nodup_keys q.keysOnly ((hes.map Prod.fst).nodup_iff.mpr ht)).sublist
        (filter_sublist.map Entry.key)
    rw [query_eq s h ht hn henum, merge_eq_sort s hnodup h ht hn henum hplain hne hes, Datastore.query,
      naiveQueryApply_entries, orderBy, if_neg (by simpa using hne),
      s.sort_filter (strictOn_less hplain hkeys)]
  refine ⟨?_, hsorted⟩
  by_cases hne : q.orders = []
  · -- without orders the flat map may give its entries in the order of the merge
    have hpass (l : List (Key × Bytes)) :
        (l.map (entryOf q.keysOnly)).filter (inPrefix q.pre) = l.filterMap fun kv =>
          .guard (fun e => inPrefix q.pre e) (entryOf q.keysOnly kv) := by
      rw [← filterMap_eq_filter, filterMap_map]
      rfl
    have hflat := (Merge.merge_perm (rank q.orders) _).trans (gathered_perm s hnodup h ht hn henum q)
    rw [hpass] at hflat
    obtain ⟨es, hes, hlist⟩ := exists_perm_filterMap _ _ hflat
    refine ⟨es, hes, ?_⟩
    rw [query_eq s h ht hn henum, Datastore.query, naiveQueryApply_entries, hpass, hlist,
      hne]
    rfl
  · exact ⟨t.entries, .refl _, hsorted hne _ (.refl _)⟩

end Answer

end Dep2p.Datastore.Mount
