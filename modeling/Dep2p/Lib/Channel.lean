import Dep2p.Lib.Diamond

/- Two machines that talk over a pair of byte channels.

   A machine reads a byte at a time, hands bytes over for writing, waits until all it
   handed over is written, or halts. Each channel is a queue. The channel takes the
   bytes a machine handed over one at a time and at any moment, so every chunking of
   reads and writes is some interleaving of the four kinds of steps.

   Each machine is deterministic and has a channel of its own to read from, so two
   steps of different kinds commute (`diamond`), and one run to a final state decides
   what all runs do. -/
namespace Dep2p.Lib

open Option

variable {β S T : Type}

/-- What a machine does next. -/
inductive Act (β S : Type) where
  | read (k : β → S)
  | write (bs : List β) (s : S)
  | flush (s : S)
  | halt

/-- The bytes `bs` bring a machine that reads them from `s` to the result. -/
def feed (m : S → Act β S) : S → List β → Option S
  | s, [] => some s
  | s, b :: bs =>
    match m s with
    | .read k => feed m (k b) bs
    | _ => none

/-- What a machine sees: its state, what it handed over, and what it can read. -/
structure Side (β S : Type) where
  state : S
  out : List β := []
  input : List β := []

/-- The machine takes its next action, if it can. -/
def Side.run (m : S → Act β S) (v : Side β S) : Option (Side β S) :=
  match m v.state with
  | .read k =>
    match v.input with
    | [] => none
    | b :: bs => some { v with state := k b, input := bs }
  | .write bs s => some { v with state := s, out := v.out ++ bs }
  | .flush s =>
    match v.out with
    | [] => some { v with state := s }
    | _ :: _ => none
  | .halt => none

variable {m : S → Act β S}

/-- More input changes nothing about an action that can be taken. -/
theorem Side.run_input {v v' : Side β S} (h : v.run m = some v') (bs : List β) :
    run m { v with input := v.input ++ bs } = some { v' with input := v'.input ++ bs } := by
  obtain ⟨s, out, input⟩ := v
  simp only [run] at h ⊢
  generalize m s = act at h ⊢
  cases act with
  | read k =>
    cases input with
    | nil => cases h
    | cons b input =>
      cases h
      rfl
  | write ws s' =>
    cases h
    rfl
  | flush s' =>
    cases out with
    | nil =>
      cases h
      rfl
    | cons b out => cases h
  | halt => cases h

variable {bs : List β}

/-- An action that can be taken while output waits leaves it waiting, in front of
what it adds. -/
theorem Side.run_out {v v' : Side β S} {b : β} (h : v.run m = some v')
    (hout : v.out = b :: bs) :
    ∃ bs', v'.out = b :: bs' ∧ run m { v with out := bs } = some { v' with out := bs' } := by
  obtain ⟨s, out, input⟩ := v
  cases hout
  simp only [run] at h ⊢
  generalize m s = act at h ⊢
  cases act with
  | read k =>
    cases input with
    | nil => cases h
    | cons c input =>
      cases h
      exact ⟨bs, rfl, rfl⟩
  | write ws s' =>
    cases h
    exact ⟨bs ++ ws, rfl, rfl⟩
  | flush s' | halt => cases h

/-- Two machines: what one handed over is on its way to the input of the other. -/
structure Net (β S T : Type) where
  left : Side β S
  right : Side β T

namespace Net

/-- The same seen from the other side. -/
def swap (x : Net β S T) : Net β T S := ⟨x.right, x.left⟩

/-- The left machine takes an action. -/
def run (m : S → Act β S) (x : Net β S T) : Option (Net β S T) :=
  (x.left.run m).map fun v => { x with left := v }

/-- The channel brings a byte of the left machine to the right one. -/
def send (x : Net β S T) : Option (Net β S T) :=
  match x.left.out with
  | [] => none
  | b :: bs => some ⟨{ x.left with out := bs }, { x.right with input := x.right.input ++ [b] }⟩

inductive Kind where
  | leftRun | leftSend | rightRun | rightSend

/-- The step of a kind, if there is one. -/
def fire (m : S → Act β S) (m' : T → Act β T) (x : Net β S T) : Kind → Option (Net β S T)
  | .leftRun => x.run m
  | .leftSend => x.send
  | .rightRun => (x.swap.run m').map swap
  | .rightSend => (x.swap.send).map swap

def Step (m : S → Act β S) (m' : T → Act β T) (x y : Net β S T) : Prop :=
  ∃ kind, x.fire m m' kind = some y

variable {m : S → Act β S} {m' : T → Act β T} {x y z : Net β S T}

/-! ## Steps of different kinds commute -/

/-- `f` and `g` can be taken in either order. -/
def Commute (x : Net β S T) (f g : Net β S T → Option (Net β S T)) : Prop :=
  ∀ y z, f x = some y → g x = some z → ∃ w, g y = some w ∧ f z = some w

theorem Commute.symm {f g : Net β S T → Option (Net β S T)} (h : Commute x f g) : Commute x g f := by
  intro y z hy hz
  obtain ⟨w, hf, hg⟩ := h z y hz hy
  exact ⟨w, hg, hf⟩

/-- What holds on one side holds on the other. -/
theorem Commute.swap {f g : Net β T S → Option (Net β T S)} (h : Commute x.swap f g) :
    Commute x (fun x => (f x.swap).map swap) fun x => (g x.swap).map swap := by
  intro y z hy hz
  obtain ⟨y', hy', rfl⟩ := map_eq_some_iff.mp hy
  obtain ⟨z', hz', rfl⟩ := map_eq_some_iff.mp hz
  obtain ⟨w, hf, hg⟩ := h y' z' hy' hz'
  refine ⟨w.swap, ?_, ?_⟩
  · show (g y').map Net.swap = _
    rw [hf, map_some]
  · show (f z').map Net.swap = _
    rw [hg, map_some]

theorem commute_run_send : Commute x (run m) send := by
  intro y z hy hz
  obtain ⟨v, hv, rfl⟩ := map_eq_some_iff.mp hy
  cases hout : x.left.out with
  | nil => simp only [send, hout] at hz; cases hz
  | cons b bs =>
    simp only [send, hout, some.injEq] at hz
    subst hz
    obtain ⟨bs', hout', hrun⟩ := Side.run_out hv hout
    refine ⟨⟨{ v with out := bs' }, { x.right with input := x.right.input ++ [b] }⟩, ?_, ?_⟩
    · simp [send, hout']
    · simp [run, hrun]

theorem commute_run_otherSend : Commute x (run m) fun x => (x.swap.send).map swap := by
  intro y z hy hz
  obtain ⟨v, hv, rfl⟩ := map_eq_some_iff.mp hy
  cases hout : x.right.out with
  | nil => simp only [send, swap, hout] at hz; cases hz
  | cons b bs =>
    simp only [send, swap, hout, map_some, some.injEq] at hz
    subst hz
    refine ⟨⟨{ v with input := v.input ++ [b] }, { x.right with out := bs }⟩, ?_, ?_⟩
    · simp [send, swap, hout]
    · simp [run, Side.run_input hv [b]]

theorem commute_run_otherRun : Commute x (run m) fun x => (x.swap.run m').map swap := by
  intro y z hy hz
  obtain ⟨v, hv, rfl⟩ := map_eq_some_iff.mp hy
  obtain ⟨z', hz', rfl⟩ := map_eq_some_iff.mp hz
  obtain ⟨v', hv', rfl⟩ := map_eq_some_iff.mp hz'
  change x.right.run m' = some v' at hv'
  refine ⟨⟨v, v'⟩, ?_, ?_⟩
  · simp [run, swap, hv']
  · simp [run, swap, hv]

theorem commute_send_otherSend : Commute x send fun x => (x.swap.send).map swap := by
  intro y z hy hz
  cases hleft : x.left.out with
  | nil => simp only [send, hleft] at hy; cases hy
  | cons b bs =>
    cases hright : x.right.out with
    | nil => simp only [send, swap, hright] at hz; cases hz
    | cons c cs =>
      simp only [send, hleft, some.injEq] at hy
      simp only [send, swap, hright, map_some, some.injEq] at hz
      subst hy hz
      refine ⟨⟨⟨x.left.state, bs, x.left.input ++ [c]⟩, x.right.state, cs, x.right.input ++ [b]⟩, ?_, ?_⟩
      · simp [send, swap, hright]
      · simp [send, hleft]

theorem commute_send_otherRun : Commute x send fun x => (x.swap.run m').map swap := by
  have h : Commute x.swap (run m') fun x => (x.swap.send).map swap := commute_run_otherSend
  have hsend : (fun x : Net β S T => ((x.swap.swap.send).map swap).map swap) = send := by
    funext x
    rw [map_map]
    exact map_id'
  have hswap := h.swap
  rw [hsend] at hswap
  exact hswap.symm

theorem diamond : Diamond (Step m m') := by
  rintro x y z ⟨kind, hy⟩ ⟨kind', hz⟩
  have hcomm : kind = kind' ∨ Commute x (fire m m' · kind) (fire m m' · kind') := by
    cases kind <;> cases kind'
    case leftRun.leftSend => exact .inr commute_run_send
    case leftSend.leftRun => exact .inr commute_run_send.symm
    case leftRun.rightRun => exact .inr commute_run_otherRun
    case rightRun.leftRun => exact .inr commute_run_otherRun.symm
    case leftRun.rightSend => exact .inr commute_run_otherSend
    case rightSend.leftRun => exact .inr commute_run_otherSend.symm
    case leftSend.rightRun => exact .inr commute_send_otherRun
    case rightRun.leftSend => exact .inr commute_send_otherRun.symm
    case leftSend.rightSend => exact .inr commute_send_otherSend
    case rightSend.leftSend => exact .inr commute_send_otherSend.symm
    case rightRun.rightSend => exact .inr (.swap commute_run_send)
    case rightSend.rightRun => exact .inr (Commute.swap commute_run_send).symm
    all_goals exact .inl rfl
  rcases hcomm with rfl | hcomm
  · exact .inl (some.inj (hy.symm.trans hz))
  · obtain ⟨w, hyw, hzw⟩ := hcomm y z hy hz
    exact .inr ⟨w, ⟨kind', hyw⟩, kind, hzw⟩

/-! ## Longer steps -/

theorem step_swap {x y : Net β T S} (h : Step m' m x y) : Step m m' x.swap y.swap := by
  obtain ⟨kind, h⟩ := h
  cases kind with
  | leftRun => exact ⟨.rightRun, congrArg (Option.map swap) h⟩
  | leftSend => exact ⟨.rightSend, congrArg (Option.map swap) h⟩
  | rightRun =>
    obtain ⟨w, hw, rfl⟩ := map_eq_some_iff.mp h
    exact ⟨.leftRun, hw⟩
  | rightSend =>
    obtain ⟨w, hw, rfl⟩ := map_eq_some_iff.mp h
    exact ⟨.leftSend, hw⟩

theorem steps_swap {n : Nat} {x y : Net β T S} (h : Steps (Step m' m) n x y) :
    Steps (Step m m') n x.swap y.swap := by
  induction h with
  | refl x => exact .refl x.swap
  | cons hstep _ ih => exact .cons (step_swap hstep) ih

theorem leads_swap {x y : Net β T S} (h : Leads (Step m' m) x y) : Leads (Step m m') x.swap y.swap := by
  obtain ⟨n, h⟩ := h
  exact ⟨n, steps_swap h⟩

/-- All that the left machine handed over arrives. -/
theorem leads_send (m : S → Act β S) (m' : T → Act β T) (s : S) (out input : List β) (v : Side β T) :
    Leads (Step m m') ⟨⟨s, out, input⟩, v⟩ ⟨⟨s, [], input⟩, { v with input := v.input ++ out }⟩ := by
  induction out generalizing v with
  | nil =>
    rw [List.append_nil]
    exact .refl
  | cons b out ih =>
    have hstep : Step m m' ⟨⟨s, b :: out, input⟩, v⟩ ⟨⟨s, out, input⟩, { v with input := v.input ++ [b] }⟩ :=
      ⟨.leftSend, rfl⟩
    refine .head hstep ?_
    have hrest := ih { v with input := v.input ++ [b] }
    rw [List.append_assoc] at hrest
    exact hrest

variable {s' : S}

theorem leads_write (m : S → Act β S) (m' : T → Act β T) (s : S) (h : m s = .write bs s')
    (out input : List β) (v : Side β T) :
    Leads (Step m m') ⟨⟨s, out, input⟩, v⟩ ⟨⟨s', out ++ bs, input⟩, v⟩ :=
  .single ⟨.leftRun, by simp [fire, run, Side.run, h]⟩

theorem leads_flush (m : S → Act β S) (m' : T → Act β T) (s : S) (h : m s = .flush s')
    (input : List β) (v : Side β T) :
    Leads (Step m m') ⟨⟨s, [], input⟩, v⟩ ⟨⟨s', [], input⟩, v⟩ :=
  .single ⟨.leftRun, by simp [fire, run, Side.run, h]⟩

/-- The left machine reads `bs`. -/
theorem leads_feed {s : S} (h : feed m s bs = some s') (out rest : List β) (v : Side β T) :
    Leads (Step m m') ⟨⟨s, out, bs ++ rest⟩, v⟩ ⟨⟨s', out, rest⟩, v⟩ := by
  induction bs generalizing s with
  | nil =>
    cases h
    exact .refl
  | cons b bs ih =>
    simp only [feed] at h
    cases hm : m s with
    | read k =>
      simp only [hm] at h
      refine .head ⟨.leftRun, ?_⟩ (ih h)
      simp [fire, run, Side.run, hm]
    | write ws t | flush t | halt => simp only [hm] at h; cases h

/-- Bytes that were written at once and arrived at once. -/
theorem leads_say (m : S → Act β S) (m' : T → Act β T) (s : S) {s₁ s₂ : S} (hw : m s = .write bs s₁)
    (hf : m s₁ = .flush s₂) (input : List β) (v : Side β T) :
    Leads (Step m m') ⟨⟨s, [], input⟩, v⟩ ⟨⟨s₂, [], input⟩, { v with input := v.input ++ bs }⟩ :=
  (leads_write m m' s hw [] input v).trans
    ((leads_send m m' s₁ bs input v).trans (leads_flush m m' s₁ hf input _))

theorem leads_send_right (t : T) (out input : List β)
    (v : Side β S) :
    Leads (Step m m') ⟨v, t, out, input⟩ ⟨{ v with input := v.input ++ out }, t, [], input⟩ :=
  leads_swap (leads_send m' m t out input v)

theorem leads_feed_right {t t' : T} (h : feed m' t bs = some t') (out rest : List β) (v : Side β S) :
    Leads (Step m m') ⟨v, t, out, bs ++ rest⟩ ⟨v, t', out, rest⟩ :=
  leads_swap (leads_feed h out rest v)

theorem leads_say_right (m : S → Act β S) (m' : T → Act β T) (t : T) {t₁ t₂ : T}
    (hw : m' t = .write bs t₁) (hf : m' t₁ = .flush t₂) (input : List β) (v : Side β S) :
    Leads (Step m m') ⟨v, t, [], input⟩ ⟨{ v with input := v.input ++ bs }, t₂, [], input⟩ :=
  leads_swap (leads_say m' m t hw hf input v)

end Net

end Dep2p.Lib
