import Mathlib.Data.List.Basic

/-!
# Computations that ask

A computation asks, and goes on with the answers. Who answers is left open; to give none breaks it off.

* `asked f p`: the questions of `p` that `f` answers; `answers f p`: the answers, to where it is over or broken off.
* **`answers_eq_iff`**: two answer alike all along, if and only if they do so to each question that one of them is
  asked. `result_eq`: then the computation comes to the same.

Nothing here is about particular questions.
-/

namespace Bbq.Lib

inductive Asking (Q R α : Type)
  | done (a : α)
  /-- It does not go on. -/
  | stop
  | ask (q : Q) (next : R → Asking Q R α)

namespace Asking

variable {Q R α β : Type}

def bind : Asking Q R α → (α → Asking Q R β) → Asking Q R β
  | .done a, k => k a
  | .stop, _ => .stop
  | .ask q next, k => .ask q fun r => (next r).bind k

instance : Monad (Asking Q R) where
  pure := .done
  bind := bind

/-- Asks, and takes the answer. -/
def question (q : Q) : Asking Q R R := .ask q .done

def asked (f : Q → Option R) : Asking Q R α → List Q
  | .done _ | .stop => []
  | .ask q next =>
    q :: match f q with
      | some r => (next r).asked f
      | none => []

def answers (f : Q → Option R) : Asking Q R α → List (Option R)
  | .done _ | .stop => []
  | .ask q next =>
    f q :: match f q with
      | some r => (next r).answers f
      | none => []

def result (f : Q → Option R) : Asking Q R α → Option α
  | .done a => some a
  | .stop => none
  | .ask q next => (f q).bind fun r => (next r).result f

variable {f g : Q → Option R}

/-- **The answers are the same** where they are to each question. -/
theorem answers_eq_iff (p : Asking Q R α) : p.answers f = p.answers g ↔ ∀ q ∈ p.asked g, f q = g q := by
  induction p with
  | done a => exact ⟨fun _ => nofun, fun _ => rfl⟩
  | stop => exact ⟨fun _ => nofun, fun _ => rfl⟩
  | ask q next ih =>
    rw [answers, answers, asked, List.cons.injEq, List.forall_mem_cons]
    -- from here on both have given the same answer
    refine and_congr_right fun hq => ?_
    rw [hq]
    cases g q with
    | none => exact ⟨fun _ => nofun, fun _ => rfl⟩
    | some r => exact ih r

theorem result_eq (p : Asking Q R α) (h : ∀ q ∈ p.asked g, f q = g q) : p.result f = p.result g := by
  induction p with
  | done a => rfl
  | stop => rfl
  | ask q next ih =>
    rw [asked, List.forall_mem_cons] at h
    rw [result, result, h.1]
    cases hq : g q with
    | none => rfl
    | some r =>
      rw [hq] at h
      exact ih r h.2

end Asking

end Bbq.Lib
