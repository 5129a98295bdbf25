import Dep2p.Lib.Fault

/- Keys of datastores (`datastore/key.go`).

   A key is a rooted path. `NewKey` cleans a text with `path.Clean`, which for a rooted path
   drops empty components and `.`, and takes the component before a `..` away with it.
   `RawKey` takes a text as it is and panics if it is not of the right form.

   Correspondence (Go ↔ Lean):
     `Key`, `NewKey`, `RawKey`                       ↔ `Key`, `newKey`, `rawKey`
     `Child`, `IsAncestorOf`, `IsDescendantOf`       ↔ `child`, `isAncestorOf`, `isDescendantOf`
     `path.Clean` of a rooted path                   ↔ `clean` -/
namespace Dep2p.Datastore

open Lib List

abbrev Bytes := List UInt8

def slash : UInt8 := 0x2F

/-! ## Components -/

/-- `strings.Split(s, "/")` -/
def split : Bytes → List Bytes
  | [] => [[]]
  | b :: bs =>
    if b = slash then [] :: split bs
    else
      match split bs with
      | [] => [[b]]
      | c :: cs => (b :: c) :: cs

variable (s : Bytes) (cs : List Bytes)

theorem split_ne_nil : split s ≠ [] := by
  cases s with
  | nil => exact cons_ne_nil _ _
  | cons b bs =>
    rw [split]
    split
    · exact cons_ne_nil _ _
    · split <;> exact cons_ne_nil _ _

theorem split_cons_slash : split (slash :: s) = [] :: split s := by
  rw [split, if_pos rfl]

theorem split_append_slash (xs ys : Bytes) : split (xs ++ slash :: ys) = split xs ++ split ys := by
  induction xs with
  | nil => exact split_cons_slash ys
  | cons x xs ih =>
    rw [cons_append, split, split]
    by_cases hx : x = slash
    · rw [if_pos hx, if_pos hx, ih, cons_append]
    · rw [if_neg hx, if_neg hx, ih]
      cases hs : split xs with
      | nil => exact absurd hs (split_ne_nil xs)
      | cons c cs => rfl

theorem split_of_notMem {c : Bytes} (h : slash ∉ c) : split c = [c] := by
  induction c with
  | nil => rfl
  | cons b bs ih =>
    obtain ⟨hb, hbs⟩ := not_or.mp (mt mem_cons.mpr h)
    rw [split, if_neg (Ne.symm hb), ih hbs]

theorem notMem_of_mem_split {s c : Bytes} (h : c ∈ split s) : slash ∉ c := by
  induction s generalizing c with
  | nil =>
    rw [split, mem_singleton] at h
    rw [h]
    exact not_mem_nil
  | cons b bs ih =>
    rw [split] at h
    by_cases hb : b = slash
    · rw [if_pos hb] at h
      rcases mem_cons.mp h with rfl | h
      · exact not_mem_nil
      · exact ih h
    · rw [if_neg hb] at h
      cases hs : split bs with
      | nil => exact absurd hs (split_ne_nil bs)
      | cons c' cs =>
        rw [hs] at h ih
        rcases mem_cons.mp h with rfl | h
        · exact mt mem_cons.mp (not_or.mpr ⟨Ne.symm hb, ih mem_cons_self⟩)
        · exact ih (mem_cons_of_mem c' h)

/-- Components one below the other. -/
def below : Bytes := cs.flatMap (slash :: ·)

theorem below_cons (c : Bytes) (cs : List Bytes) : below (c :: cs) = slash :: (c ++ below cs) := by
  simp [below]

theorem below_append (ds : List Bytes) : below (cs ++ ds) = below cs ++ below ds := by
  simp [below]

/-- A text is its components put together again. -/
theorem below_split : below (split s) = slash :: s := by
  induction s with
  | nil => rfl
  | cons b bs ih =>
    rw [split]
    by_cases hb : b = slash
    · rw [if_pos hb, below_cons, nil_append, ih, hb]
    · rw [if_neg hb]
      cases hs : split bs with
      | nil => exact absurd hs (split_ne_nil bs)
      | cons c cs =>
        rw [hs, below_cons] at ih
        rw [below_cons, cons_append, (cons.inj ih).2]

theorem split_below {cs : List Bytes} (h : ∀ c ∈ cs, slash ∉ c) : split (below cs) = [] :: cs := by
  induction cs with
  | nil => rfl
  | cons c cs ih =>
    obtain ⟨hc, hcs⟩ := forall_mem_cons.mp h
    rw [below_cons, split_cons_slash]
    cases cs with
    | nil =>
      have hnil : c ++ below [] = c := append_nil c
      rw [hnil, split_of_notMem hc]
    | cons d ds =>
      have hrest := ih hcs
      rw [below_cons] at hrest
      rw [below_cons, split_append_slash, split_of_notMem hc, (cons.inj hrest).2]
      rfl

/-! ## Clean texts -/

def dot : Bytes := [0x2E]

def dotdot : Bytes := [0x2E, 0x2E]

/-- A component that stays when a path is cleaned. -/
structure Proper (c : Bytes) : Prop where
  nonempty : c ≠ []
  dot : c ≠ dot
  dotdot : c ≠ dotdot
  slash : slash ∉ c

/-- Take the components one by one; `acc` are those that stay so far, the last one first. -/
def resolve (acc : List Bytes) : List Bytes → List Bytes
  | [] => acc.reverse
  | c :: cs =>
    if c = [] ∨ c = dot then resolve acc cs
    else if c = dotdot then resolve acc.tail cs
    else resolve (c :: acc) cs

/-- The path with the given components; the root has none. -/
def rooted : Bytes := if cs.isEmpty then [slash] else below cs

/-- `path.Clean("/" + s)` -/
def clean : Bytes := rooted (resolve [] (split s))

theorem resolve_of_proper {cs : List Bytes} (acc : List Bytes) (h : ∀ c ∈ cs, Proper c) :
    resolve acc cs = acc.reverse ++ cs := by
  induction cs generalizing acc with
  | nil => rw [resolve, append_nil]
  | cons c cs ih =>
    obtain ⟨hc, hcs⟩ := forall_mem_cons.mp h
    rw [resolve, if_neg (not_or.mpr ⟨hc.nonempty, hc.dot⟩), if_neg hc.dotdot, ih _ hcs,
      reverse_cons, append_assoc, singleton_append]

theorem proper_of_mem_resolve {acc cs : List Bytes} (hacc : ∀ c ∈ acc, Proper c)
    (hcs : ∀ c ∈ cs, slash ∉ c) : ∀ c ∈ resolve acc cs, Proper c := by
  induction cs generalizing acc with
  | nil =>
    intro c hc
    exact hacc c (mem_reverse.mp hc)
  | cons d cs ih =>
    obtain ⟨hd, hcs⟩ := forall_mem_cons.mp hcs
    rw [resolve]
    split
    · exact ih hacc hcs
    rename_i hskip
    obtain ⟨hnil, hdot⟩ := not_or.mp hskip
    split
    · exact ih (fun c hc => hacc c (mem_of_mem_tail hc)) hcs
    · rename_i hdotdot
      exact ih (forall_mem_cons.mpr ⟨⟨hnil, hdot, hdotdot, hd⟩, hacc⟩) hcs

/-- What is cleaned is the path of proper components. -/
theorem clean_eq : ∃ cs, clean s = rooted cs ∧ ∀ c ∈ cs, Proper c :=
  ⟨resolve [] (split s), rfl,
    proper_of_mem_resolve (fun _ h => nomatch h) fun _ => notMem_of_mem_split⟩

theorem clean_rooted {cs : List Bytes} (h : ∀ c ∈ cs, Proper c) : clean (rooted cs) = rooted cs := by
  cases cs with
  | nil => rfl
  | cons c cs =>
    have hsplit : split (rooted (c :: cs)) = [] :: c :: cs :=
      split_below fun d hd => (h d hd).slash
    rw [clean, hsplit, resolve, resolve_of_proper [] h]
    rfl

theorem clean_clean : clean (clean s) = clean s := by
  obtain ⟨cs, hcs, hproper⟩ := clean_eq s
  rw [hcs, clean_rooted hproper]

/-! ## Keys -/

/-- The form that `RawKey` asks for. -/
def WellFormed : Prop := s.head? = some slash ∧ (1 < s.length → s.getLast? ≠ some slash)

instance (s : Bytes) : Decidable (WellFormed s) := inferInstanceAs (Decidable (_ ∧ _))

structure Key where
  string : Bytes
  wellFormed : WellFormed string

namespace Key

@[ext] theorem ext {k k' : Key} (h : k.string = k'.string) : k = k' := by
  cases k
  cases k'
  cases h
  rfl

instance : DecidableEq Key := fun k k' => decidable_of_iff (k.string = k'.string) ⟨ext, congrArg _⟩

def root : Key := ⟨[slash], by decide⟩

theorem getLast?_below {cs : List Bytes} (hne : cs ≠ []) (h : ∀ c ∈ cs, Proper c) :
    (below cs).getLast? ≠ some slash := by
  obtain ⟨ds, d, rfl⟩ := eq_nil_or_concat cs |>.resolve_left hne
  rw [concat_eq_append] at h ⊢
  have hd := h d (mem_append_right ds mem_cons_self)
  have hbelow : below (ds ++ [d]) = (below ds ++ [slash]) ++ d := by
    simp [below]
  rw [hbelow, getLast?_append_of_ne_nil _ hd.nonempty]
  intro hlast
  exact hd.slash (mem_of_getLast? hlast)

theorem wellFormed_rooted {cs : List Bytes} (h : ∀ c ∈ cs, Proper c) : WellFormed (rooted cs) := by
  cases cs with
  | nil => decide
  | cons c cs => exact ⟨by simp [rooted, below], fun _ => getLast?_below (cons_ne_nil _ _) h⟩

end Key

def newKey : Key where
  string := clean s
  wellFormed := by
    obtain ⟨cs, hcs, hproper⟩ := clean_eq s
    rw [hcs]
    exact Key.wellFormed_rooted hproper

/-- A text that is not of the right form panics; an empty one stands for the root. -/
def rawKey : Except (Fault Empty) Key :=
  if s = [] then .ok Key.root
  else if h : WellFormed s then .ok ⟨s, h⟩
  else .error .panicked

variable (k : Key)

namespace Key

theorem wellFormed_append {s t : Bytes} (hs : WellFormed s) (ht : WellFormed t) (hne : t ≠ [slash]) :
    WellFormed (s ++ t) := by
  obtain ⟨hhead, -⟩ := hs
  obtain ⟨thead, tlast⟩ := ht
  cases s with
  | nil => cases hhead
  | cons b bs =>
    cases t with
    | nil => cases thead
    | cons c cs =>
      refine ⟨hhead, fun _ => ?_⟩
      rw [getLast?_append_of_ne_nil _ (cons_ne_nil c cs)]
      apply tlast
      cases cs with
      | nil =>
        have hc : c = slash := Option.some.inj thead
        exact absurd (by rw [hc]) hne
      | cons d ds => simp

/-- The text of the child is the right form for `RawKey`. -/
def child (k2 : Key) : Key :=
  if k = root then k2
  else if h : k2 = root then k
  else ⟨k.string ++ k2.string, wellFormed_append k.wellFormed k2.wellFormed fun hs => h (ext hs)⟩

def isAncestorOf (other : Key) : Bool :=
  if other.string.length ≤ k.string.length then false
  else if k = root then true
  else
    (other.string.drop k.string.length).head? = some slash ∧
      other.string.take k.string.length = k.string

def isDescendantOf (other : Key) : Bool := other.isAncestorOf k

/-- A key that `NewKey` leaves as it is. -/
def Clean : Prop := newKey k.string = k

instance (k : Key) : Decidable k.Clean := inferInstanceAs (Decidable (_ = _))

theorem clean_newKey : (newKey s).Clean := ext (clean_clean s)

theorem string_cons : ∃ s, k.string = slash :: s := by
  have hhead := k.wellFormed.1
  cases hs : k.string with
  | nil => rw [hs] at hhead; cases hhead
  | cons b bs =>
    rw [hs] at hhead
    exact ⟨bs, congrArg (· :: bs) (Option.some.inj hhead)⟩

theorem string_ne_nil : k.string ≠ [] := by
  obtain ⟨s, hs⟩ := k.string_cons
  rw [hs]
  exact cons_ne_nil _ _

/-- A clean key is the path of its components. -/
theorem clean_iff {k : Key} : k.Clean ↔ ∃ cs, k.string = rooted cs ∧ ∀ c ∈ cs, Proper c := by
  constructor
  · intro h
    obtain ⟨cs, hcs, hproper⟩ := clean_eq k.string
    exact ⟨cs, (congrArg string h).symm.trans hcs, hproper⟩
  · rintro ⟨cs, hcs, hproper⟩
    apply ext
    change clean k.string = k.string
    rw [hcs, clean_rooted hproper]

/-- The components of a clean key that is not the root. -/
theorem Clean.eq_below {k : Key} (h : k.Clean) (hk : k ≠ root) :
    ∃ cs, cs ≠ [] ∧ k.string = below cs ∧ ∀ c ∈ cs, Proper c := by
  obtain ⟨cs, hcs, hproper⟩ := clean_iff.mp h
  cases cs with
  | nil => exact absurd (ext hcs) hk
  | cons c cs => exact ⟨c :: cs, cons_ne_nil _ _, hcs, hproper⟩

theorem child_root : root.child k = k := if_pos rfl

theorem child_of_ne {k k2 : Key} (hk : k ≠ root) (hk2 : k2 ≠ root) :
    (k.child k2).string = k.string ++ k2.string := by
  rw [child, if_neg hk, dif_neg hk2]

theorem Clean.child {k k2 : Key} (h : k.Clean) (h2 : k2.Clean) : (k.child k2).Clean := by
  by_cases hk : k = root
  · rw [hk]
    exact h2
  by_cases hk2 : k2 = root
  · rw [Key.child, if_neg hk, dif_pos hk2]
    exact h
  obtain ⟨cs, hne, hcs, hproper⟩ := h.eq_below hk
  obtain ⟨ds, -, hds, hproper2⟩ := h2.eq_below hk2
  refine clean_iff.mpr ⟨cs ++ ds, ?_, fun c hc => ?_⟩
  · rw [child_of_ne hk hk2, hcs, hds, ← below_append, rooted]
    simp [hne]
  · exact (mem_append.mp hc).elim (hproper c) (hproper2 c)

/-- The root is the ancestor of every other key. -/
theorem root_isAncestorOf {k : Key} : root.isAncestorOf k = true ↔ k ≠ root := by
  obtain ⟨s, hs⟩ := k.string_cons
  unfold isAncestorOf
  cases s with
  | nil =>
    have hk : k = root := ext hs
    simp [hk]
  | cons b bs =>
    have hk : k ≠ root := fun h => by
      rw [h] at hs
      cases hs
    have hlen : ¬ k.string.length ≤ root.string.length := by
      rw [hs]
      simp [root]
    simp [hk, hlen]

/-- What follows a part of a key, if it begins with a slash, is a key below the root. -/
theorem exists_rest {k : Key} {s rest : Bytes} (hs : s ≠ []) (h : k.string = s ++ slash :: rest) :
    ∃ r, r ≠ root ∧ r.string = slash :: rest := by
  have hlen : 1 < k.string.length := by
    have hpos := length_pos_iff.mpr hs
    rw [h, length_append, length_cons]
    omega
  have hlast := k.wellFormed.2 hlen
  rw [h, getLast?_append_of_ne_nil _ (cons_ne_nil _ _)] at hlast
  refine ⟨⟨slash :: rest, rfl, fun _ => hlast⟩, fun hroot => ?_, rfl⟩
  have hrest : slash :: rest = [slash] := congrArg string hroot
  rw [hrest] at hlast
  exact hlast rfl

/-- What is below a key that is not the root is the key with another one behind it. -/
theorem isAncestorOf_iff {k other : Key} (hk : k ≠ root) :
    k.isAncestorOf other = true ↔
      ∃ rest, rest ≠ root ∧ other.string = k.string ++ rest.string := by
  unfold isAncestorOf
  constructor
  · intro h
    split at h
    · cases h
    obtain ⟨hhead, htake⟩ := of_decide_eq_true h
    have hother := take_append_drop k.string.length other.string
    obtain ⟨rest, hdrop⟩ := head?_eq_some_iff.mp hhead
    rw [htake, hdrop] at hother
    obtain ⟨r, hr, hrest⟩ := exists_rest k.string_ne_nil hother.symm
    exact ⟨r, hr, by rw [hrest, hother]⟩
  · rintro ⟨rest, -, hother⟩
    obtain ⟨s, hs⟩ := rest.string_cons
    have hlen : ¬ other.string.length ≤ k.string.length := by
      rw [hother, hs, length_append, length_cons]
      omega
    rw [hother, hs]
    simp

end Key

end Dep2p.Datastore
