import Dep2p.Datastore.MountQuery

/- A mount datastore is one flat map.

   The flat map takes the keys that are strictly below some mount, and refuses others as the
   mount datastore does. Every run of the mount datastore is a run of the flat map with the
   same answers (`mount_flat`), as long as the keys below a mount are clean and no batch that
   already holds operations for a root mount is given one on the root itself: such an
   operation is not refused, but ends up in the map mounted at the root
   (`root_batch_differs`). -/
namespace Dep2p.Datastore

open Lib List Table List.Forall₂

/-! ## The flat map -/

/-- A map and the batches for it. -/
structure FlatState where
  store : Store := ⟨[]⟩
  batches : List Mount.BasicBatch := []

namespace Flat

def mounted (mounts : List Key) (key : Key) : Bool := mounts.any (·.isAncestorOf key)

def Next (s : Sorter Entry) (mounts : List Key) (f : FlatState) (c : MountCall) (a : MountAnswer)
    (f' : FlatState) : Prop :=
  match c with
  | .call (.put key value) =>
    if mounted mounts key then a = .answer .done ∧ f' = { f with store := f.store.set key value }
    else a = .errNoMount ∧ f' = f
  | .call (.delete key) => a = .answer .done ∧ f' = { f with store := f.store.erase key }
  | .call (.get key) => a = .answer (.value (f.store.get key)) ∧ f' = f
  | .call (.has key) => a = .answer (.found (f.store.get key).isSome) ∧ f' = f
  | .call (.getSize key) => a = .answer (.size ((f.store.get key).map List.length)) ∧ f' = f
  | .call (.query q) =>
    ((∃ es, es.Perm f.store.entries ∧ a = .answer (.results (query s es q))) ∧
      (q.orders ≠ [] → ∀ es, es.Perm f.store.entries → a = .answer (.results (query s es q)))) ∧
    f' = f
  | .batch => a = .handle f.batches.length ∧ f' = { f with batches := f.batches ++ [⟨[]⟩] }
  | .batchOp handle key op =>
    match f.batches[handle]? with
    | none => a = .noBatch ∧ f' = f
    | some b =>
      if mounted mounts key then
        a = .answer .done ∧ f' = { f with batches := f.batches.set handle (b.set key op) }
      else a = .errBatchUnsupported ∧ f' = f
  | .commit handle =>
    match f.batches[handle]? with
    | none => a = .noBatch ∧ f' = f
    | some b => a = .answer .done ∧ f' = { f with store := Mount.applyOps f.store b.entries }

end Flat

namespace Mount

/-! ## Routes and mounts -/

section Routes

variable {mounts mounts' : List Key} {key m : Key}

theorem lookup_some (h : (lookup mounts key).child = some m) :
    (lookup mounts key).loc = m ∧ m ∈ mounts ∧
      route mounts key = some (m, (lookup mounts key).rest) := by
  refine ⟨?_, ?_, by rw [route, h]; rfl⟩
  · unfold lookup at h ⊢
    split
    · rename_i m' hfind
      rw [hfind] at h
      exact Option.some.inj h
    · rename_i hfind
      rw [hfind] at h
      cases h
  · unfold lookup at h
    split at h
    · rename_i m' hfind
      rw [← Option.some.inj h]
      exact mem_of_find?_eq_some hfind
    · cases h

theorem lookup_none (h : (lookup mounts key).child = none) :
    (lookup mounts key).loc = .root ∧ route mounts key = none := by
  refine ⟨?_, by rw [route, h]; rfl⟩
  unfold lookup at h ⊢
  split
  · rename_i m hfind
    rw [hfind] at h
    cases h
  · rfl

theorem mounted_of_route (hperm : mounts'.Perm mounts) {mr : Key × Key}
    (h : route mounts' key = some mr) : Flat.mounted mounts key = true := by
  have hnot : ¬ route mounts' key = none := by
    rw [h]
    simp
  rw [route_eq_none] at hnot
  obtain ⟨m, hm⟩ := not_forall.mp hnot
  obtain ⟨hmem, hanc⟩ := Classical.not_imp.mp hm
  exact any_eq_true.mpr ⟨m, hperm.subset hmem, not_not.mp hanc⟩

theorem not_mounted_of_route (hperm : mounts'.Perm mounts) (h : route mounts' key = none) :
    Flat.mounted mounts key = false := by
  rw [route_eq_none] at h
  rw [Flat.mounted, any_eq_false]
  exact fun m hm => h m (hperm.symm.subset hm)

/-- A key with a proper beginning of another's text is smaller. -/
theorem lt_of_isAncestorOf {a b : Key} (h : a.isAncestorOf b = true) : a.string < b.string := by
  have hb := ne_root_of_isAncestorOf h
  rw [isAncestorOf_iff_lead hb] at h
  obtain ⟨rest, hrest⟩ := h
  have hlonger : ∃ t, t ≠ [] ∧ b.string = a.string ++ t := by
    by_cases ha : a = .root
    · refine ⟨rest, fun hnil => hb (Key.ext ?_), ?_⟩
      · rw [← hrest, ha, hnil]
        rfl
      · rw [← hrest, ha]
        rfl
    · exact ⟨slash :: rest, cons_ne_nil _ _, by
        rw [← hrest, lead_of_ne ha, append_assoc, singleton_append]⟩
  obtain ⟨t, ht, hbt⟩ := hlonger
  obtain ⟨x, xs, rfl⟩ := exists_cons_of_ne_nil ht
  have hlt : a.string ++ [] < a.string ++ x :: xs := append_lt_append_iff.mpr (nil_lt_cons x xs)
  rwa [append_nil, ← hbt] at hlt

theorem new_sorted (sk : Sorter Key) (hnodup : mounts.Nodup) :
    (new sk mounts).Pairwise fun a b => b.string < a.string := by
  have hstrict : StrictOn (fun a b : Key => decide (b.string < a.string)) mounts := by
    refine .of_key (fun k : Key => OrderDual.toDual k.string) ?_ ?_
    · exact hnodup.map fun _ _ h => Key.ext h
    · intro a _ b _ _
      exact decide_eq_true_iff
  exact (sk.sorted _ _ hstrict).imp of_decide_eq_true

/-- Keys live in the most specific of the configured mounts above them. -/
theorem lookup_most_specific (sk : Sorter Key) (hnodup : mounts.Nodup)
    (h : (lookup (new sk mounts) key).child = some m) :
    m ∈ mounts ∧ m.isAncestorOf key = true ∧
      ∀ m' ∈ mounts, m'.isAncestorOf key = true → m' = m ∨ m'.isAncestorOf m = true := by
  have hfind : (new sk mounts).find? (·.isAncestorOf key) = some m := by
    unfold lookup at h
    split at h
    · rename_i m₀ hfind
      rw [hfind, ← Option.some.inj h]
    · cases h
  obtain ⟨hm, as, bs, hsplit, has⟩ := find?_eq_some_iff_append.mp hfind
  have hperm : (new sk mounts).Perm mounts := sk.perm _ _
  refine ⟨hperm.subset (mem_of_find?_eq_some hfind), hm, fun m' hm' hanc => ?_⟩
  rcases isAncestorOf_comparable hanc hm with heq | hup | hdown
  · exact .inl heq
  · exact .inr hup
  · -- a more specific one would stand before it in the list
    have hmem : m' ∈ as ++ m :: bs := by
      rw [← hsplit]
      exact hperm.symm.subset hm'
    have hsorted := new_sorted sk hnodup
    rw [hsplit] at hsorted
    rcases mem_append.mp hmem with hbefore | hafter
    · have hnot := has m' hbefore
      rw [hanc] at hnot
      cases hnot
    · rcases mem_cons.mp hafter with heq | hafter
      · exact .inl heq
      · have hlt := (pairwise_cons.mp (pairwise_append.mp hsorted).2.1).1 m' hafter
        exact absurd (lt_of_isAncestorOf hdown) (lt_asymm hlt)

end Routes

variable {t : Store} {op : BatchOp}

/-! ## Batches -/

theorem get_applyOp (t : Store) (k k' : Key) (op : BatchOp) :
    (applyOp t (k, op)).get k' = if k' = k then op.result else t.get k' := by
  cases op with
  | put value => exact get_set t k k' value
  | delete => exact get_erase t k k'

theorem keyed_applyOps (h : t.Keyed) (ops : List (Key × BatchOp)) :
    (applyOps t ops).Keyed := by
  induction ops generalizing t with
  | nil => exact h
  | cons op ops ih =>
    refine ih ?_
    unfold applyOp
    split
    · exact h.set _ _
    · exact h.erase _

variable {ops : List (Key × BatchOp)}

/-- Operations on different keys, each seen at its key. -/
theorem get_applyOps (t : Store) (hops : (ops.map (·.1)).Nodup) (k : Key) :
    (applyOps t ops).get k = ((⟨ops⟩ : BasicBatch).get k).elim (t.get k) BatchOp.result := by
  induction ops generalizing t with
  | nil => rfl
  | cons op ops ih =>
    obtain ⟨k₀, op⟩ := op
    obtain ⟨hk₀, hrest⟩ := nodup_cons.mp hops
    change (applyOps (applyOp t (k₀, op)) ops).get k = _
    rw [ih _ hrest, get_applyOp]
    unfold Table.get
    by_cases hk : k = k₀
    · subst hk
      have hnone : ops.find? (fun e => decide (e.1 = k)) = none := by
        rw [find?_eq_none]
        intro e he heq
        exact hk₀ (mem_map.mpr ⟨e, he, of_decide_eq_true heq⟩)
      rw [hnone]
      simp
    · have hk' : ¬ k₀ = k := fun heq => hk heq.symm
      rw [if_neg hk, find?_cons_of_neg (by simpa using hk')]

theorem get_applyOps_perm {b : BasicBatch} (hb : b.Keyed)
    (hperm : ops.Perm b.entries) (k : Key) :
    (applyOps t ops).get k = (b.get k).elim (t.get k) BatchOp.result := by
  have hops : (⟨ops⟩ : BasicBatch).Keyed := (hperm.map Prod.fst).nodup_iff.mpr hb
  have hget : (⟨ops⟩ : BasicBatch).get k = b.get k := by
    apply Option.ext
    intro op
    rw [← hops.mem_iff, ← hb.mem_iff]
    exact hperm.mem_iff
  rw [get_applyOps t hops, hget]

variable {b : MountBatch}

/-- A commit applies its batch to each map. -/
theorem row_commit (children : Table Key Store) (hb : b.Keyed) {order : Key → List (Key × BatchOp)}
    (horder : ∀ m, (order m).Perm (b.row m).entries) (m : Key) :
    (commit children b order).row m = applyOps (children.row m) (order m) := by
  have hfold (es : List (Key × BasicBatch)) (hes : (es.map (·.1)).Nodup) (n : Table Key Store) :
      (es.foldl (fun n e => n.updateRow e.1 (applyOps · (order e.1))) n).row m =
        if m ∈ es.map (·.1) then applyOps (n.row m) (order m) else n.row m := by
    induction es generalizing n with
    | nil => rfl
    | cons e es ih =>
      obtain ⟨he, hrest⟩ := nodup_cons.mp hes
      rw [foldl_cons, ih hrest, row_updateRow]
      by_cases hm : m = e.1
      · subst hm
        have hin : e.1 ∈ (e :: es).map (·.1) := mem_cons_self
        rw [if_neg he, if_pos rfl, if_pos hin]
      · have hiff : m ∈ (e :: es).map (·.1) ↔ m ∈ es.map (·.1) := by
          rw [map_cons, mem_cons, or_iff_right hm]
        simp only [if_neg hm, hiff]
  unfold commit
  rw [hfold b.entries hb children]
  split
  · rfl
  rename_i hnot
  -- a mount that the batch does not know has nothing to apply
  have hnone : b.get m = none := by
    rw [Option.eq_none_iff_forall_not_mem]
    intro ops hops
    exact hnot (mem_map.mpr ⟨(m, ops), hb.mem_iff.mpr hops, rfl⟩)
  have hempty : order m = [] := by
    have hperm := horder m
    rw [row, hnone] at hperm
    exact perm_nil.mp hperm
  rw [hempty]
  rfl

/-! ## The simulation -/

/-- A batch holds the operations of a flat one where the routes lead. -/
structure BatchMirrors (mounts : List Key) (b : MountBatch) (o : BasicBatch) : Prop where
  spread : Spread (route mounts) Key.Clean b o
  keyed : b.Keyed
  rows : ∀ m, (b.row m).Keyed
  flat : o.Keyed
  mounted : ∀ m, b.get m ≠ none → m ∈ mounts

/-- The mounted maps hold a flat one where the routes lead, and so do the batches. -/
structure MountMirrors (mounts : List Key) (d : MountState) (f : FlatState) : Prop where
  spread : Spread (route mounts) Key.Clean d.children f.store
  rows : ∀ m, (d.children.row m).Keyed
  flat : f.store.Keyed
  batches : List.Forall₂ (BatchMirrors mounts) d.batches f.batches

section Batches

variable {α β : Type} {R : α → β → Prop} {l : List α} {l' : List β}

theorem forall₂_getElem? (h : List.Forall₂ R l l') (i : Nat) :
    (l[i]? = none ∧ l'[i]? = none) ∨ ∃ a b, l[i]? = some a ∧ l'[i]? = some b ∧ R a b := by
  induction h generalizing i with
  | nil => exact .inl ⟨rfl, rfl⟩
  | cons hab _ ih =>
    cases i with
    | zero => exact .inr ⟨_, _, rfl, rfl, hab⟩
    | succ i => exact ih i

theorem forall₂_set (h : List.Forall₂ R l l') {a : α} {b : β} (hab : R a b) (i : Nat) :
    List.Forall₂ R (l.set i a) (l'.set i b) := by
  induction h generalizing i with
  | nil => exact nil
  | cons hhead htail ih =>
    cases i with
    | zero => exact cons hab htail
    | succ i => exact cons hhead (ih i)

end Batches

variable {m : Key}

theorem keyed_updateRow {V : Type} {n : Table Key (Table Key V)} (h : ∀ m, (n.row m).Keyed)
    {f : Table Key V → Table Key V} (hf : (f (n.row m)).Keyed) (m' : Key) :
    ((n.updateRow m f).row m').Keyed := by
  rw [row_updateRow]
  split
  · exact hf
  · exact h m'

variable {mounts : List Key} {d : MountState} {f : FlatState} {key : Key}

theorem read_eq (h : MountMirrors mounts d f) (hkey : Flat.mounted mounts key = true → key.Clean) :
    read mounts d key = f.store.get key := by
  cases hchild : (lookup mounts key).child with
  | none =>
    rw [h.spread.get_eq_none (lookup_none hchild).2, read, hchild]
    rfl
  | some m =>
    obtain ⟨-, -, hroute⟩ := lookup_some hchild
    rw [h.spread.get key (hkey (mounted_of_route (.refl _) hroute)), hroute, read, hchild]
    rfl

variable {r : Key} {o : BasicBatch}

theorem BatchMirrors.set (h : BatchMirrors mounts b o) (hkey : key.Clean)
    (hm : m ∈ mounts) (hroute : route mounts key = some (m, r)) :
    BatchMirrors mounts (b.updateRow m (·.set r op)) (o.set key op) where
  spread := h.spread.write route_injective hkey hroute (b.get_row_set m · r · op)
    (o.get_set key · op)
  keyed := h.keyed.set _ _
  rows := keyed_updateRow h.rows ((h.rows m).set r op)
  flat := h.flat.set key op
  mounted m' hm' := by
    rw [updateRow, get_set] at hm'
    split at hm'
    · rename_i heq
      rw [heq]
      exact hm
    · exact h.mounted m' hm'

/-- A batch for a mount that is new holds nothing. -/
theorem BatchMirrors.start (h : BatchMirrors mounts b o) (hm : m ∈ mounts)
    (hnone : b.get m = none) : BatchMirrors mounts (b.set m ⟨[]⟩) o := by
  have hrow (m' : Key) : row (b.set m ⟨[]⟩) m' = b.row m' := by
    unfold row
    rw [get_set]
    split
    · rename_i heq
      rw [heq, hnone]
      rfl
    · rfl
  refine ⟨⟨fun k hk => ?_, h.spread.domain, fun m' r v hv => ?_⟩, h.keyed.set _ _, fun m' => ?_, h.flat,
    fun m' hm' => ?_⟩
  · rw [h.spread.get k hk]
    simp [hrow]
  · rw [hrow] at hv
    exact h.spread.routed m' r v hv
  · rw [hrow]
    exact h.rows m'
  · rw [get_set] at hm'
    split at hm'
    · rename_i heq
      rw [heq]
      exact hm
    · exact h.mounted m' hm'

/-- A key below a mount is clean, the orders of queries are by keys and values, and an operation
on the root does not go into a batch that has one for a mount at the root. -/
def Guard (mounts : List Key) (d : MountState) : MountCall → Prop
  | .call c => (∀ k, c.key? = some k → Flat.mounted mounts k = true → k.Clean) ∧
      ∀ q, c = .query q → ∀ o ∈ q.orders, o.isPlain = true
  | .batch => True
  | .batchOp handle key _ => (Flat.mounted mounts key = true → key.Clean) ∧
      (key = Key.root → ∀ b, d.batches[handle]? = some b → b.get Key.root = none)
  | .commit _ => True

section Steps

variable (s : Sorter Entry) (h : MountMirrors mounts d f) {mounts₀ : List Key}
  (hperm : mounts.Perm mounts₀) {a : MountAnswer} {d' : MountState}
include h

theorem MountMirrors.put (hkey : key.Clean) (hroute : route mounts key = some (m, r))
    (value : Bytes) :
    MountMirrors mounts { d with children := d.children.updateRow m (·.set r value) }
      { f with store := f.store.set key value } where
  spread := h.spread.write route_injective hkey hroute
    (d.children.get_row_set m · r · value) (f.store.get_set key · value)
  rows := keyed_updateRow h.rows ((h.rows m).set r value)
  flat := h.flat.set key value
  batches := h.batches

theorem MountMirrors.delete (hkey : key.Clean) (hroute : route mounts key = some (m, r)) :
    MountMirrors mounts { d with children := d.children.updateRow m (·.erase r) }
      { f with store := f.store.erase key } where
  spread := h.spread.write route_injective hkey hroute
    (d.children.get_row_erase m · r ·) (f.store.get_erase key ·)
  rows := keyed_updateRow h.rows ((h.rows m).erase r)
  flat := h.flat.erase key
  batches := h.batches

include hperm

theorem follows_put {value : Bytes} (hkey : Flat.mounted mounts key = true → key.Clean)
    (hnext : Next s mounts d (.call (.put key value)) a d') :
    ∃ f', Flat.Next s mounts₀ f (.call (.put key value)) a f' ∧ MountMirrors mounts d' f' := by
  simp only [Next] at hnext
  simp only [Flat.Next]
  split at hnext
  · rename_i hchild
    obtain ⟨rfl, rfl⟩ := hnext
    rw [not_mounted_of_route hperm (lookup_none hchild).2]
    exact ⟨f, ⟨rfl, rfl⟩, h⟩
  · rename_i m hchild
    obtain ⟨rfl, rfl⟩ := hnext
    obtain ⟨-, -, hroute⟩ := lookup_some hchild
    rw [mounted_of_route hperm hroute]
    exact ⟨_, ⟨rfl, rfl⟩, h.put (hkey (mounted_of_route (.refl _) hroute)) hroute value⟩

omit hperm in
theorem follows_delete (hkey : Flat.mounted mounts key = true → key.Clean)
    (hnext : Next s mounts d (.call (.delete key)) a d') :
    ∃ f', Flat.Next s mounts₀ f (.call (.delete key)) a f' ∧ MountMirrors mounts d' f' := by
  simp only [Next] at hnext
  split at hnext
  · rename_i hchild
    obtain ⟨rfl, rfl⟩ := hnext
    -- nothing is stored under a key that is below no mount
    have hnone : f.store.get key = none := h.spread.get_eq_none (lookup_none hchild).2
    refine ⟨f, ⟨rfl, ?_⟩, h⟩
    rw [Table.erase_of_get_none hnone]
  · rename_i m hchild
    obtain ⟨rfl, rfl⟩ := hnext
    obtain ⟨-, -, hroute⟩ := lookup_some hchild
    exact ⟨_, ⟨rfl, rfl⟩, h.delete (hkey (mounted_of_route (.refl _) hroute)) hroute⟩

omit hperm in
theorem follows_query {q : Query} (hnodup : mounts.Nodup)
    (hplain : ∀ o ∈ q.orders, o.isPlain = true) (hnext : Next s mounts d (.call (.query q)) a d') :
    ∃ f', Flat.Next s mounts₀ f (.call (.query q)) a f' ∧ MountMirrors mounts d' f' := by
  obtain ⟨⟨enum, henum, rfl⟩, rfl⟩ := hnext
  obtain ⟨⟨es, hes, heq⟩, hexact⟩ :=
    query_answers s hnodup h.spread h.flat h.rows henum hplain
  refine ⟨f, ⟨⟨⟨es, hes, by rw [heq]⟩, fun hne es' hes' => ?_⟩, rfl⟩, h⟩
  rw [hexact hne es' hes']

variable {handle : Nat}

theorem follows_batchOp
    (hguard : Guard mounts d (.batchOp handle key op))
    (hnext : Next s mounts d (.batchOp handle key op) a d') :
    ∃ f', Flat.Next s mounts₀ f (.batchOp handle key op) a f' ∧ MountMirrors mounts d' f' := by
  obtain ⟨hkey, hroot⟩ := hguard
  simp only [Next] at hnext
  simp only [Flat.Next]
  rcases forall₂_getElem? h.batches handle with ⟨hb, ho⟩ | ⟨b, o, hb, ho, hmirrors⟩
  · rw [hb] at hnext
    rw [ho]
    obtain ⟨rfl, rfl⟩ := hnext
    exact ⟨f, ⟨rfl, rfl⟩, h⟩
  rw [hb] at hnext
  rw [ho]
  have hput {b' : MountBatch} (hb' : BatchMirrors mounts b' o) {m : Key}
      (hchild : (lookup mounts key).child = some m) :
      MountMirrors mounts ⟨d.children, d.batches.set handle
        (b'.updateRow m (·.set (lookup mounts key).rest op))⟩
        ⟨f.store, f.batches.set handle (o.set key op)⟩ := by
    obtain ⟨-, hm, hroute⟩ := lookup_some hchild
    have hclean := hkey (mounted_of_route (.refl _) hroute)
    exact ⟨h.spread, h.rows, h.flat, forall₂_set h.batches (hb'.set hclean hm hroute) handle⟩
  cases hchild : (lookup mounts key).child with
  | none =>
    obtain ⟨hloc, hroute⟩ := lookup_none hchild
    rw [not_mounted_of_route hperm hroute]
    have hnone : b.get (lookup mounts key).loc = none := by
      rw [hloc]
      by_contra hsome
      -- with a mount at the root, only the root itself is below no mount
      have hmem := hmirrors.mounted .root hsome
      have hkeyroot : key = .root := by
        by_contra hne
        exact route_eq_none.mp hroute .root hmem (Key.root_isAncestorOf.mpr hne)
      exact hsome (hroot hkeyroot b hb)
    simp only [lookupBatch, hnone, hchild] at hnext
    obtain ⟨rfl, rfl⟩ := hnext
    exact ⟨f, ⟨rfl, rfl⟩, h⟩
  | some m =>
    obtain ⟨hloc, hm, hroute⟩ := lookup_some hchild
    rw [mounted_of_route hperm hroute]
    cases hget : b.get (lookup mounts key).loc with
    | some t =>
      simp only [lookupBatch, hget] at hnext
      obtain ⟨rfl, rfl⟩ := hnext
      rw [hloc]
      exact ⟨_, ⟨rfl, rfl⟩, hput hmirrors hchild⟩
    | none =>
      simp only [lookupBatch, hget, hchild] at hnext
      obtain ⟨rfl, rfl⟩ := hnext
      rw [hloc] at hget ⊢
      exact ⟨_, ⟨rfl, rfl⟩, hput (hmirrors.start hm hget) hchild⟩

omit hperm in
theorem follows_commit (hnext : Next s mounts d (.commit handle) a d') :
    ∃ f', Flat.Next s mounts₀ f (.commit handle) a f' ∧ MountMirrors mounts d' f' := by
  simp only [Next] at hnext
  simp only [Flat.Next]
  rcases forall₂_getElem? h.batches handle with ⟨hb, ho⟩ | ⟨b, o, hb, ho, hmirrors⟩
  · rw [hb] at hnext
    rw [ho]
    obtain ⟨rfl, rfl⟩ := hnext
    exact ⟨f, ⟨rfl, rfl⟩, h⟩
  rw [hb] at hnext
  rw [ho]
  obtain ⟨rfl, order, horder, rfl⟩ := hnext
  have hrow := row_commit d.children hmirrors.keyed horder
  refine ⟨_, ⟨rfl, rfl⟩, ⟨?_, fun m => ?_, keyed_applyOps h.flat _, h.batches⟩⟩
  · refine h.spread.overlay BatchOp.result hmirrors.spread (fun m r => ?_) fun k => ?_
    · rw [hrow m]
      exact get_applyOps_perm (hmirrors.rows m) (horder m) r
    · exact get_applyOps_perm hmirrors.flat (List.Perm.refl _) k
  · rw [hrow m]
    exact keyed_applyOps (h.rows m) _

end Steps

/-- The flat map can follow each guarded step with the same answer. -/
theorem MountMirrors.follows (s : Sorter Entry) (hnodup : mounts.Nodup) {mounts₀ : List Key}
    (hperm : mounts.Perm mounts₀) (c : MountCall) (a : MountAnswer)
    (d' : MountState) (h : MountMirrors mounts d f) (hguard : Guard mounts d c)
    (hnext : Next s mounts d c a d') :
    ∃ f', Flat.Next s mounts₀ f c a f' ∧ MountMirrors mounts d' f' := by
  cases c with
  | call c =>
    obtain ⟨hclean, hplain⟩ := hguard
    cases c with
    | put key value => exact follows_put s h hperm (hclean key rfl) hnext
    | delete key => exact follows_delete s h (hclean key rfl) hnext
    | query q => exact follows_query s h hnodup (hplain q rfl) hnext
    | get key | has key | getSize key =>
      obtain ⟨rfl, rfl⟩ := hnext
      exact ⟨f, ⟨by rw [read_eq h (hclean key rfl)], rfl⟩, h⟩
  | batch =>
    obtain ⟨rfl, rfl⟩ := hnext
    have hempty : BatchMirrors mounts (⟨[]⟩ : MountBatch) (⟨[]⟩ : BasicBatch) :=
      ⟨.empty, keyed_empty, fun _ => keyed_empty, keyed_empty,
        fun _ hm => absurd rfl hm⟩
    refine ⟨_, ⟨by rw [h.batches.length_eq], rfl⟩, h.spread, h.rows, h.flat, ?_⟩
    exact rel_append h.batches (cons hempty nil)
  | batchOp handle key op => exact follows_batchOp s h hperm hguard hnext
  | commit handle => exact follows_commit s h hnext

theorem mirrors_empty : MountMirrors mounts {} {} where
  spread := .empty
  rows _ := keyed_empty
  flat := keyed_empty
  batches := nil

/-- Every call is answered. -/
theorem next_total (s : Sorter Entry) (mounts : List Key) (d : MountState) (c : MountCall) :
    ∃ a d', Next s mounts d c a d' := by
  cases c with
  | call c =>
    cases c with
    | put key value | delete key =>
      simp only [Next]
      split <;> exact ⟨_, _, rfl, rfl⟩
    | get key | has key | getSize key => exact ⟨_, _, rfl, rfl⟩
    | query q =>
      exact ⟨_, _, ⟨fun m => (d.children.row m).entries, fun m => .refl _, rfl⟩, rfl⟩
  | batch => exact ⟨_, _, rfl, rfl⟩
  | batchOp handle key op =>
    simp only [Next]
    split
    · exact ⟨_, _, rfl, rfl⟩
    · split <;> exact ⟨_, _, rfl, rfl⟩
  | commit handle =>
    simp only [Next]
    split
    · exact ⟨_, _, rfl, rfl⟩
    · rename_i b _
      exact ⟨_, _, rfl, fun m => (b.row m).entries, fun m => .refl _, rfl⟩

/-- A call whose guard holds. -/
def GuardedNext (s : Sorter Entry) (mounts : List Key) (d : MountState) (c : MountCall)
    (a : MountAnswer) (d' : MountState) : Prop :=
  Guard mounts d c ∧ Next s mounts d c a d'

/-- For every list of mounts with different prefixes, over empty maps: every call is answered,
and the answers of a run of guarded calls are those of the flat map. -/
theorem mount_flat (s : Sorter Entry) (sk : Sorter Key) (mounts : List Key) (hnodup : mounts.Nodup) :
    (∀ d c, ∃ a d', Next s (new sk mounts) d c a d') ∧
    ∀ calls as d, Possible (GuardedNext s (new sk mounts)) {} calls as d →
      ∃ f, Possible (Flat.Next s mounts) {} calls as f := by
  refine ⟨next_total s (new sk mounts), fun calls as d hrun => ?_⟩
  have hperm : (new sk mounts).Perm mounts := sk.perm _ _
  have hnodup' : (new sk mounts).Nodup := hperm.nodup_iff.mpr hnodup
  obtain ⟨f, hf, -⟩ := Possible.simulated (fun _ => True) (MountMirrors (new sk mounts))
    (fun d f c a d' _ h hnext => MountMirrors.follows s hnodup' hperm c a d' h hnext.1 hnext.2)
    (fun _ _ => trivial) mirrors_empty hrun
  exact ⟨f, hf⟩

section Instances

/-- Mounts at `/` and `/p`. -/
def nestedMounts : List Key := [Key.root, newKey [slash, 0x70]]

theorem lookup_most_specific_nested : Key.root.isAncestorOf (newKey [slash, 0x70]) = true :=
  ((@lookup_most_specific nestedMounts (newKey [slash, 0x70, slash, 0x78]) _ .insertion
    (by decide +kernel) (by decide +kernel)).2.2 _ (by decide +kernel)
      (by decide +kernel)).resolve_left (by decide +kernel)

/-- Put `/p/x` and `/y`, put `/p/z` and delete `/y` in a batch, and ask for everything by key. -/
def nestedCalls : List MountCall :=
  [.call (.put (newKey [slash, 0x70, slash, 0x78]) [1]), .call (.put (newKey [slash, 0x79]) [2]),
    .batch, .batchOp 0 (newKey [slash, 0x70, slash, 0x7a]) (.put [3]),
    .batchOp 0 (newKey [slash, 0x79]) .delete, .commit 0, .call (.query { orders := [.byKey] })]

def nestedAnswers : List MountAnswer :=
  [.answer .done, .answer .done, .handle 0, .answer .done, .answer .done, .answer .done,
    .answer (.results
      ⟨[⟨[slash, 0x70, slash, 0x78], [1], 1⟩, ⟨[slash, 0x70, slash, 0x7a], [3], 1⟩], false⟩)]

theorem nested_run : ∃ d, Possible (GuardedNext .insertion (new .insertion nestedMounts))
    {} nestedCalls nestedAnswers d := by
  have hclean {c : Call} {s : Bytes} {ms : List Key} (hc : ∀ k, c.key? = some k → k = newKey s) :
      ∀ k, c.key? = some k → Flat.mounted ms k = true → k.Clean := by
    intro k hk _
    rw [hc k hk]
    exact Key.clean_newKey s
  have hput {s v : Bytes} : ∀ k, (Call.put (newKey s) v).key? = some k → k = newKey s := by
    rintro k ⟨⟩
    rfl
  have hne : newKey [slash, 0x70, slash, 0x7a] ≠ Key.root ∧ newKey [slash, 0x79] ≠ Key.root := by
    decide +kernel
  refine ⟨_, _, _, _, rfl, ⟨⟨hclean hput, by simp⟩, rfl, rfl⟩,
    _, _, _, rfl, ⟨⟨hclean hput, by simp⟩, rfl, rfl⟩,
    _, _, _, rfl, ⟨trivial, rfl, rfl⟩,
    _, _, _, rfl, ⟨⟨fun _ => Key.clean_newKey _, fun h => absurd h hne.1⟩, rfl, rfl⟩,
    _, _, _, rfl, ⟨⟨fun _ => Key.clean_newKey _, fun h => absurd h hne.2⟩, rfl, rfl⟩,
    _, _, _, rfl, ⟨trivial, rfl, fun m => (row _ m).entries, fun m => .refl _, rfl⟩,
    _, _, _, rfl, ⟨⟨by simp [Call.key?], ?_⟩,
    ⟨fun m => (row _ m).entries, fun m => .refl _, ?_⟩, rfl⟩, rfl, rfl⟩
  · rintro q ⟨⟩
    decide
  · decide +kernel

theorem mount_flat_nested : nestedMounts.Nodup ∧
    (∃ d, Possible (GuardedNext Sorter.insertion (new Sorter.insertion nestedMounts)) {} nestedCalls
      nestedAnswers d) ∧
    ∃ f, Possible (Flat.Next Sorter.insertion nestedMounts) {} nestedCalls nestedAnswers f := by
  have hnodup : nestedMounts.Nodup := by decide +kernel
  obtain ⟨d, hd⟩ := nested_run
  exact ⟨hnodup, ⟨d, hd⟩,
    (mount_flat .insertion .insertion nestedMounts hnodup).2 nestedCalls nestedAnswers d hd⟩

/-- A batch with a put at `/a` and one at the root, and everything by key after its commit. -/
def rootCalls : List MountCall :=
  [.batch, .batchOp 0 (newKey [slash, 0x61]) (.put [1]), .batchOp 0 Key.root (.put [2]), .commit 0,
    .call (.query { orders := [.byKey] })]

/-- What a mount at the root answers: the entry at the root is among the results. -/
def rootAnswers : List MountAnswer :=
  [.handle 0, .answer .done, .answer .done, .answer .done,
    .answer (.results ⟨[⟨[slash], [2], 1⟩, ⟨[slash, 0x61], [1], 1⟩], false⟩)]

/-- The root is below no mount, but with a mount at the root a batch takes a put at it after one
at another key, and the entry is found by queries. The flat map refuses the put. -/
theorem root_batch_differs :
    (∃ d, Possible (Next Sorter.insertion (new Sorter.insertion [Key.root])) {} rootCalls
      rootAnswers d) ∧
    Flat.mounted [Key.root] Key.root = false ∧
    ¬ ∃ f, Possible (Flat.Next Sorter.insertion [Key.root]) {} rootCalls rootAnswers f := by
  refine ⟨?_, by decide +kernel, ?_⟩
  · refine ⟨_, _, _, _, rfl, ⟨rfl, rfl⟩, _, _, _, rfl, ⟨rfl, rfl⟩, _, _, _, rfl, ⟨rfl, rfl⟩,
      _, _, _, rfl, ⟨rfl, fun m => (row _ m).entries, fun m => .refl _, rfl⟩,
      _, _, _, rfl, ⟨⟨fun m => (row _ m).entries, fun m => .refl _, ?_⟩, rfl⟩, rfl, rfl⟩
    decide +kernel
  · rintro ⟨f, a₁, as₁, f₁, h₁, ⟨-, rfl⟩, a₂, as₂, f₂, h₂, ⟨-, rfl⟩, a₃, as₃, f₃, h₃, hput, -⟩
    cases h₁
    cases h₂
    cases h₃
    -- the third answer is that of the put at the root
    obtain ⟨hrefused, -⟩ := hput
    cases hrefused

end Instances

end Mount

end Dep2p.Datastore
