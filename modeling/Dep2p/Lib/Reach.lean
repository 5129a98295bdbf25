/- Runs of a deterministic machine under a condition on its steps.

   `Reach step ok init s` says that `s` is the state after a finite sequence of
   inputs from `init`, each of which met the condition `ok` in the state it was
   given in. The induction over the sequence is done once, in `Reach.invariant`.

   `answers` is what a machine with outputs returns for a sequence of inputs, and
   `answers_eq` the rule of simulation for it. -/
namespace Dep2p.Lib

/-- The states reached from `init` by inputs that meet `ok`. -/
inductive Reach {S A : Type} (step : S → A → S) (ok : S → A → Prop) (init : S) : S → Prop where
  | init : Reach step ok init init
  | step {s : S} (a : A) : Reach step ok init s → ok s a → Reach step ok init (step s a)

namespace Reach

variable {S A : Type} {step : S → A → S} {ok ok' : S → A → Prop} {init s : S} {I : S → Prop}

/-- What holds initially and is kept by every step holds in every state reached. -/
theorem invariant (h₀ : I init)
    (hstep : ∀ s a, Reach step ok init s → ok s a → I s → I (step s a))
    (h : Reach step ok init s) : I s := by
  induction h with
  | init => exact h₀
  | step a hr hok ih => exact hstep _ a hr hok ih

/-- The inputs meet the condition one after the other. -/
def Admits (step : S → A → S) (ok : S → A → Prop) : S → List A → Prop
  | _, [] => True
  | s, a :: as => ok s a ∧ Admits step ok (step s a) as

/-- A sequence of inputs that meet the condition is a run. -/
theorem foldl {as : List A} (h : Reach step ok init s) (hok : Admits step ok s as) :
    Reach step ok init (as.foldl step s) := by
  induction as generalizing s with
  | nil => exact h
  | cons a as ih => exact ih (h.step a hok.1) hok.2

theorem admits_of_all (hok : ∀ s a, ok s a) (as : List A) : Admits step ok s as := by
  induction as generalizing s with
  | nil => exact trivial
  | cons a as ih => exact ⟨hok s a, ih⟩

/-- Where a step keeps `I` exactly under `ok'`, the sequences along which `I` holds are
those whose steps all meet `ok'`. -/
theorem along_iff {as : List A}
    (hstep : ∀ s a, Reach step ok init s → ok s a → I s → (I (step s a) ↔ ok' s a))
    (h : Reach step ok init s) (hI : I s) (hok : Admits step ok s as) :
    (∀ k, I ((as.take k).foldl step s)) ↔ Admits step ok' s as := by
  induction as generalizing s with
  | nil =>
    refine ⟨fun _ => trivial, fun _ k => ?_⟩
    rw [List.take_nil]
    exact hI
  | cons a as ih =>
    have hiff := hstep s a h hok.1 hI
    constructor
    · intro hall
      have hnext : I (step s a) := hall 1
      exact ⟨hiff.mp hnext, (ih (h.step a hok.1) hnext hok.2).mp fun k => hall (k + 1)⟩
    · rintro ⟨hgood, hrest⟩ k
      cases k with
      | zero => exact hI
      | succ k => exact (ih (h.step a hok.1) (hiff.mpr hgood) hok.2).mpr hrest k

end Reach

/-! ## Machines that answer -/

section Answers

variable {S T A R : Type}

/-- The answers to a sequence of inputs. -/
def answers (step : S → A → R × S) : S → List A → List R
  | _, [] => []
  | s, a :: as => (step s a).1 :: answers step (step s a).2 as

/-- Two machines that give the same answer and stay related are indistinguishable. -/
theorem answers_eq {step : S → A → R × S} {step' : T → A → R × T} {Sim : S → T → Prop}
    (hstep : ∀ s t a, Sim s t → (step s a).1 = (step' t a).1 ∧ Sim (step s a).2 (step' t a).2)
    {s : S} {t : T} (h : Sim s t) (as : List A) : answers step s as = answers step' t as := by
  induction as generalizing s t with
  | nil => rfl
  | cons a as ih =>
    obtain ⟨hans, hsim⟩ := hstep s t a h
    simp only [answers]
    rw [hans, ih hsim]

/-- The answers to a sequence of inputs and the state after them, of a machine that may take
several steps on one input. -/
def Possible (next : S → A → R → S → Prop) : S → List A → List R → S → Prop
  | s, [], rs, s' => rs = [] ∧ s' = s
  | s, a :: as, rs, s' => ∃ r rs' s₁, rs = r :: rs' ∧ next s a r s₁ ∧ Possible next s₁ as rs' s'

variable {next : S → A → R → S → Prop} {next' : T → A → R → T → Prop} {rs : List R}

/-- A machine that can follow each step of another one with the same answer can follow its runs. -/
theorem Possible.simulated (ok : A → Prop) (Sim : S → T → Prop)
    (hstep : ∀ s t a r s', ok a → Sim s t → next s a r s' → ∃ t', next' t a r t' ∧ Sim s' t')
    {s s' : S} {t : T} {as : List A} (hok : ∀ a ∈ as, ok a) (hsim : Sim s t)
    (h : Possible next s as rs s') : ∃ t', Possible next' t as rs t' ∧ Sim s' t' := by
  induction as generalizing s t rs with
  | nil =>
    obtain ⟨rfl, rfl⟩ := h
    exact ⟨t, ⟨rfl, rfl⟩, hsim⟩
  | cons a as ih =>
    obtain ⟨ha, has⟩ := List.forall_mem_cons.mp hok
    obtain ⟨r, rs, s₁, rfl, hnext, hrest⟩ := h
    obtain ⟨t₁, hnext', hsim₁⟩ := hstep s t a r s₁ ha hsim hnext
    obtain ⟨t', hrest', hsim'⟩ := ih has hsim₁ hrest
    exact ⟨t', ⟨r, rs, t₁, rfl, hnext', hrest'⟩, hsim'⟩

/-- What every step says of its answer is said of all answers. -/
theorem Possible.forall_answers {Q : R → Prop} (hstep : ∀ s a r s', next s a r s' → Q r)
    {s s' : S} {as : List A} (h : Possible next s as rs s') : ∀ r ∈ rs, Q r := by
  induction as generalizing s rs with
  | nil =>
    obtain ⟨rfl, -⟩ := h
    exact List.forall_mem_nil _
  | cons a as ih =>
    obtain ⟨r, rs, s₁, rfl, hnext, hrest⟩ := h
    exact List.forall_mem_cons.mpr ⟨hstep _ _ _ _ hnext, ih hrest⟩

end Answers

end Dep2p.Lib
