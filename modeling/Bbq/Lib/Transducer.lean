import Mathlib.Data.List.Basic

/-!
# Operation sequences and observations

A component that is driven by a sequence of operations and looked at through an observation:
`run` performs the operations in order, and two states are *indistinguishable* (`Indist`) when
every later sequence of operations ends in the same observation. Nothing here is about a
particular component; the builders instantiate it.

Results:
* `run_invariant`: what one operation preserves, every sequence preserves.
* `Indist.of_eq`: equal states are indistinguishable.
-/

namespace Bbq.Lib

variable {σ ο β : Type}

/-- Perform the operations in order. -/
def run (step : σ → ο → σ) (s : σ) (ops : List ο) : σ := ops.foldl step s

section Run

variable (step : σ → ο → σ)

@[simp] theorem run_nil (s : σ) : run step s [] = s := rfl

@[simp] theorem run_cons (s : σ) (o : ο) (ops : List ο) :
    run step s (o :: ops) = run step (step s o) ops := rfl

theorem run_append (s : σ) (xs ys : List ο) :
    run step s (xs ++ ys) = run step (run step s xs) ys := List.foldl_append

/-- **Run rule**: an invariant of the single operation is an invariant of every sequence. -/
theorem run_invariant {P : σ → Prop} (hstep : ∀ s o, P s → P (step s o)) :
    ∀ {s : σ} (ops : List ο), P s → P (run step s ops)
  | _, [], h => h
  | s, o :: ops, h => run_invariant hstep ops (hstep s o h)

end Run

/-- No later sequence of operations tells the two states apart. -/
def Indist (step : σ → ο → σ) (obs : σ → β) (s t : σ) : Prop :=
  ∀ ops : List ο, obs (run step s ops) = obs (run step t ops)

section Indist

variable {step : σ → ο → σ} {obs : σ → β}

theorem Indist.of_eq {s t : σ} (h : s = t) : Indist step obs s t := fun _ => by rw [h]

/-- Indistinguishable states stay so under the same operations. -/
theorem Indist.run {s t : σ} (h : Indist step obs s t) (ops : List ο) :
    Indist step obs (run step s ops) (run step t ops) := by
  intro more
  rw [← run_append, ← run_append]
  exact h (ops ++ more)

end Indist

end Bbq.Lib
