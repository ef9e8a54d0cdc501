import Mathlib.Tactic

/-!
Deterministic machines that answer every input: a step gives an answer and the
next state. Two machines whose states correspond, and whose steps give the same
answer and keep the correspondence, answer every sequence of inputs alike.
-/

namespace Machines

variable {σ τ ι ο : Type*}

/-- The answers to a sequence of inputs, and the state they lead to. -/
def run (step : σ → ι → ο × σ) (s : σ) : List ι → List ο × σ
  | [] => ([], s)
  | i :: inputs =>
      let rest := run step (step s i).2 inputs
      ((step s i).1 :: rest.1, rest.2)

/-- A correspondence of states that steps keep, with equal answers. -/
structure Simulates (step : σ → ι → ο × σ) (step' : τ → ι → ο × τ) (R : σ → τ → Prop) : Prop where
  answers : ∀ s t i, R s t → (step s i).1 = (step' t i).1
  states : ∀ s t i, R s t → R (step s i).2 (step' t i).2

/-- Corresponding states answer every sequence of inputs alike. -/
theorem Simulates.run {step : σ → ι → ο × σ} {step' : τ → ι → ο × τ} {R : σ → τ → Prop}
    (h : Simulates step step' R) (inputs : List ι) {s : σ} {t : τ} (hst : R s t) :
    (Machines.run step s inputs).1 = (Machines.run step' t inputs).1 ∧
      R (Machines.run step s inputs).2 (Machines.run step' t inputs).2 := by
  induction inputs generalizing s t with
  | nil => exact ⟨rfl, hst⟩
  | cons i inputs ih =>
      obtain ⟨hanswers, hstates⟩ := ih (h.states s t i hst)
      exact ⟨congrArg₂ List.cons (h.answers s t i hst) hanswers, hstates⟩

end Machines
