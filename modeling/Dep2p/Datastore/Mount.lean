import Dep2p.Lib.HeapMerge
import Dep2p.Lib.Spread
import Dep2p.Datastore.Under

/- Datastores mounted at prefixes (`datastore/mount`).

   A key lives in the first datastore in the list of mounts that is mounted above it, under
   what follows the mount's prefix. `New` sorts the mounts downwards by the texts of their
   prefixes, so the first is the most specific one. A query goes to every mount that can hold
   an answer; each gives its own entries in order, and a heap of their heads merges them.

   The mounted datastores are maps, one for a prefix, and a batch keeps the last operation on
   each key of each of them until it is committed.

   Correspondence (Go ↔ Lean):
     `New`, `lookup`, `lookupAll`                     ↔ `Mount.new`, `Mount.lookup`, `Mount.lookupAll`
     `queryResults.advance`, `querySet`               ↔ `Mount.mountEntry`, `Lib.Merge`
     `Datastore.Query`                                ↔ `Mount.query`
     `mountBatch.lookupBatch`, `Put`, `Delete`        ↔ `Mount.lookupBatch`, `MountCall.batchOp`
     `basicBatch.Commit`, `mountBatch.Commit`         ↔ `Mount.applyOps`, `Mount.commit`
     `Datastore.Put`, `Get`, …                        ↔ `Mount.Next` -/
namespace Dep2p.Datastore

open Lib List Key

/-- `strings.TrimPrefix` -/
def trimPrefix (s pre : Bytes) : Bytes := if pre.isPrefixOf s then s.drop pre.length else s

namespace Mount

/-- The prefixes of the mounts, the largest text first. -/
def new (s : Sorter Key) (mounts : List Key) : List Key :=
  s.sort (fun a b => b.string < a.string) mounts

/-- The mount a key lives in, if any, the place that is given for it and the key there. -/
structure Located where
  child : Option Key
  loc : Key
  rest : Key

def lookup (mounts : List Key) (key : Key) : Located :=
  match mounts.find? (·.isAncestorOf key) with
  | some m => ⟨some m, m, newKey (trimPrefix key.string m.string)⟩
  | none => ⟨none, newKey [slash], key⟩

/-- The mounts that may hold keys below a key, with the prefix to ask each of them for. -/
def lookupAll : List Key → Key → List (Key × Key)
  | [], _ => []
  | m :: ms, key =>
    if m.isDescendantOf key then (m, newKey [slash]) :: lookupAll ms key
    else if m = key ∨ m.isAncestorOf key then [(m, newKey (trimPrefix key.string m.string))]
    else lookupAll ms key

/-! ## Queries -/

/-- An entry of a mounted datastore under the key it has outside. -/
def mountEntry (m : Key) (e : Entry) : Except (Fault Empty) Entry := do
  let k ← rawKey e.key
  return { e with key := (m.child k).string }

section Query

variable (s : Sorter Entry) (mounts : List Key)

/-- The entries of one mount, if the map gives its entries in the order of the list. -/
def stream (es : List (Key × Bytes)) (q : Query) (m rest : Key) : Except (Fault Empty) (List Entry) :=
  (Datastore.query s es
    { pre := rest.string, orders := q.orders, keysOnly := q.keysOnly }).entries.mapM (mountEntry m)

/-- `Query`, for orders by keys and values: comparing the heads of two streams by their ranks is
then `Less` (`headKey_lt_iff`). -/
def query (enum : Key → List (Key × Bytes)) (q : Query) : Results :=
  match (lookupAll mounts (newKey q.pre)).mapM fun t => stream s (enum t.1) q t.1 t.2 with
  | .error _ => ⟨[], true⟩
  | .ok streams =>
    let r : Results := ⟨Merge.merge (rank q.orders) streams, false⟩
    let r := q.filters.foldl naiveFilter r
    let r := if 0 < q.offset then naiveOffset r q.offset else r
    if 0 < q.limit then naiveLimit r q.limit else r

/-- What the heap of a query compares. -/
theorem headKey_lt_iff {q : Query} (h : ∀ o ∈ q.orders, o.isPlain = true) (m : Merge Entry)
    (i j : Nat) :
    m.headKey (rank q.orders) i < m.headKey (rank q.orders) j ↔
      less q.orders ((m.rest i).headD default) ((m.rest j).headD default) = true :=
  (less_iff h _ _).symm

end Query

/-! ## Batches -/

inductive BatchOp where
  | put (value : Bytes)
  | delete
  deriving DecidableEq

/-- What is at a key after the operation. -/
def BatchOp.result : BatchOp → Option Bytes
  | .put value => some value
  | .delete => none

/-- The operations on one map, the last one on each key. -/
abbrev BasicBatch := Table Key BatchOp

/-- The batches of the mounts that were used. -/
abbrev MountBatch := Table Key BasicBatch

/-- The batch with one for the mount of the key, and the place and the key there;
`ErrBatchUnsupported` if there is none. -/
def lookupBatch (mounts : List Key) (b : MountBatch) (key : Key) : Option (MountBatch × Key × Key) :=
  let l := lookup mounts key
  match b.get l.loc, l.child with
  | some _, _ => some (b, l.loc, l.rest)
  | none, none => none
  | none, some _ => some (b.set l.loc ⟨[]⟩, l.loc, l.rest)

def applyOp (t : Store) (op : Key × BatchOp) : Store :=
  match op.2 with
  | .put value => t.set op.1 value
  | .delete => t.erase op.1

def applyOps (t : Store) (ops : List (Key × BatchOp)) : Store := ops.foldl applyOp t

/-- The maps after the batch of each mount has been applied in the order given for it. -/
def commit (children : Table Key Store) (b : MountBatch) (order : Key → List (Key × BatchOp)) :
    Table Key Store :=
  b.entries.foldl (fun n e => n.updateRow e.1 (applyOps · (order e.1))) children

end Mount

inductive MountCall where
  | call (c : Call)
  | batch
  | batchOp (handle : Nat) (key : Key) (op : Mount.BatchOp)
  | commit (handle : Nat)

inductive MountAnswer where
  | answer (a : Answer)
  | errNoMount
  | errBatchUnsupported
  | handle (n : Nat)
  | noBatch
  deriving DecidableEq

/-- The mounted maps by their prefixes, and the batches by their handles. -/
structure MountState where
  children : Table Key Store := ⟨[]⟩
  batches : List Mount.MountBatch := []

namespace Mount

/-- The value a key has in the map it lives in. -/
def read (mounts : List Key) (d : MountState) (key : Key) : Option Bytes :=
  (lookup mounts key).child.bind fun m => (d.children.row m).get (lookup mounts key).rest

def Next (s : Sorter Entry) (mounts : List Key) (d : MountState) (c : MountCall) (a : MountAnswer)
    (d' : MountState) : Prop :=
  match c with
  | .call (.put key value) =>
    match (lookup mounts key).child with
    | none => a = .errNoMount ∧ d' = d
    | some m => a = .answer .done ∧
        d' = { d with children := d.children.updateRow m (·.set (lookup mounts key).rest value) }
  | .call (.delete key) =>
    match (lookup mounts key).child with
    | none => a = .answer .done ∧ d' = d
    | some m => a = .answer .done ∧
        d' = { d with children := d.children.updateRow m (·.erase (lookup mounts key).rest) }
  | .call (.get key) => a = .answer (.value (read mounts d key)) ∧ d' = d
  | .call (.has key) => a = .answer (.found (read mounts d key).isSome) ∧ d' = d
  | .call (.getSize key) => a = .answer (.size ((read mounts d key).map List.length)) ∧ d' = d
  | .call (.query q) =>
    (∃ enum : Key → List (Key × Bytes), (∀ m, (enum m).Perm (d.children.row m).entries) ∧
      a = .answer (.results (query s mounts enum q))) ∧ d' = d
  | .batch => a = .handle d.batches.length ∧ d' = { d with batches := d.batches ++ [⟨[]⟩] }
  | .batchOp handle key op =>
    match d.batches[handle]? with
    | none => a = .noBatch ∧ d' = d
    | some b =>
      match lookupBatch mounts b key with
      | none => a = .errBatchUnsupported ∧ d' = d
      | some (b, loc, rest) => a = .answer .done ∧
          d' = { d with batches := d.batches.set handle (b.updateRow loc (·.set rest op)) }
  | .commit handle =>
    match d.batches[handle]? with
    | none => a = .noBatch ∧ d' = d
    | some b => a = .answer .done ∧ ∃ order : Key → List (Key × BatchOp),
        (∀ m, (order m).Perm (b.row m).entries) ∧
        d' = { d with children := commit d.children b order }

/-! ## Routes -/

/-- Where a key lives. -/
def route (mounts : List Key) (key : Key) : Option (Key × Key) :=
  (lookup mounts key).child.map fun m => (m, (lookup mounts key).rest)

end Mount

namespace Key

theorem clean_cons_slash (s : Bytes) : clean (slash :: s) = clean s := by
  rfl

/-- The two parts of a clean key are clean. -/
theorem Clean.of_append {k m r : Key} (h : k.Clean) (hk : k.string = m.string ++ r.string) :
    m.Clean ∧ r.Clean := by
  obtain ⟨m', hm'⟩ := m.string_cons
  obtain ⟨r', hr'⟩ := r.string_cons
  have hroot : k ≠ root := by
    rintro rfl
    have hlen := congrArg length hk
    rw [hm', hr', length_append] at hlen
    simp only [root, length_cons, length_nil] at hlen
    omega
  obtain ⟨cs, -, hcs, hproper⟩ := h.eq_below hroot
  -- the components are those of the first part and then those of the second
  have hsplit : split m' ++ split r' = cs := by
    have hboth := congrArg split hk
    rw [hcs, split_below fun c hc => (hproper c hc).slash, hm', hr', cons_append,
      split_cons_slash, split_append_slash] at hboth
    exact (cons.inj hboth).2.symm
  have hpath {x : Key} {x' : Bytes} (hx : x.string = slash :: x') (hsub : split x' ⊆ cs) :
      x.Clean := by
    refine clean_iff.mpr ⟨split x', ?_, fun c hc => hproper c (hsub hc)⟩
    rw [hx, rooted, if_neg (by simp [split_ne_nil]), below_split]
  exact ⟨hpath hm' (hsplit ▸ subset_append_left _ _),
    hpath hr' (hsplit ▸ subset_append_right _ _)⟩

end Key

namespace Mount

variable {mounts : List Key} {key m r : Key}

theorem trimPrefix_append (s pre : Bytes) : trimPrefix (pre ++ s) pre = s := by
  have hpre : pre.isPrefixOf (pre ++ s) = true :=
    isPrefixOf_iff_prefix.mpr (prefix_append pre s)
  rw [trimPrefix, if_pos hpre, drop_left]

/-- What is behind an ancestor of a clean key. -/
theorem rest_of_ancestor (hkey : key.Clean) (h : m.isAncestorOf key = true) :
    key = convertKey m (newKey (trimPrefix key.string m.string)) ∧
      newKey (trimPrefix key.string m.string) ≠ root ∧
      (newKey (trimPrefix key.string m.string)).Clean := by
  by_cases hm : m = root
  · subst hm
    have hne := root_isAncestorOf.mp h
    obtain ⟨s, hs⟩ := key.string_cons
    have htrim : trimPrefix key.string root.string = s := by
      rw [hs]
      exact trimPrefix_append s [slash]
    have hrest : newKey (trimPrefix key.string root.string) = key := by
      rw [htrim]
      apply ext
      change clean s = key.string
      rw [← clean_cons_slash, ← hs]
      exact congrArg string hkey
    rw [hrest]
    exact ⟨(child_root key).symm, hne, hkey⟩
  · obtain ⟨rest, hrest, hstring⟩ := (isAncestorOf_iff hm).mp h
    obtain ⟨-, hclean⟩ := hkey.of_append hstring
    have hnew : newKey (trimPrefix key.string m.string) = rest := by
      rw [hstring, trimPrefix_append]
      exact hclean
    rw [hnew]
    refine ⟨ext ?_, hrest, hclean⟩
    rw [hstring, convertKey, child_of_ne hm hrest]

/-- The route of a clean key. -/
theorem route_eq_some (hkey : key.Clean) (h : route mounts key = some (m, r)) :
    mounts.find? (·.isAncestorOf key) = some m ∧ key = convertKey m r ∧ r ≠ root ∧ r.Clean := by
  unfold route lookup at h
  cases hfind : mounts.find? (·.isAncestorOf key) with
  | none =>
    rw [hfind] at h
    cases h
  | some m' =>
    rw [hfind] at h
    obtain ⟨rfl, rfl⟩ := Prod.mk.inj (Option.some.inj h)
    have hanc : m'.isAncestorOf key = true := by
      have hp := find?_some hfind
      exact hp
    exact ⟨rfl, rest_of_ancestor hkey hanc⟩

/-- A key is routed if some mount is above it. -/
theorem route_eq_none : route mounts key = none ↔ ∀ m ∈ mounts, ¬ m.isAncestorOf key = true := by
  unfold route lookup
  cases hfind : mounts.find? (·.isAncestorOf key) with
  | none =>
    simp only [Option.map_none, true_iff]
    intro m hm
    have hnot := find?_eq_none.mp hfind m hm
    exact hnot
  | some m =>
    simp only [Option.map_some, reduceCtorEq, false_iff, not_forall]
    have hanc := find?_some hfind
    exact ⟨m, mem_of_find?_eq_some hfind, fun hnot => hnot hanc⟩

/-- A route leads back to one key. -/
theorem route_injective (k k' : Key) (mr : Key × Key) (hk : k.Clean)
    (hk' : k'.Clean) (h : route mounts k = some mr) (h' : route mounts k' = some mr) : k = k' := by
  rw [(route_eq_some hk h).2.1, (route_eq_some hk' h').2.1]

end Mount

end Dep2p.Datastore
