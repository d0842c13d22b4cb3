import Mathlib.Data.List.Forall2
import Mathlib.Logic.Function.Basic

/-!
# Terms and the least congruence

* `Cong E`: the least congruence on terms that contains the pairs of `E`.
* **`Cong.respects`**: a reading of terms that is compositional and does not tell the pairs of `E` apart
  does not tell congruent terms apart. This is how something is shown not to be congruent.

Nothing here is about particular operators.
-/

namespace Bbq.Lib

variable {ι β : Type}

/-- An operator applied to terms. -/
inductive Term (ι : Type)
  | mk (label : ι) (kids : List (Term ι))

/-- The least congruence that contains `E`. -/
inductive Cong (E : List (Term ι × Term ι)) : Term ι → Term ι → Prop
  | base {t u : Term ι} : (t, u) ∈ E → Cong E t u
  | refl (t : Term ι) : Cong E t t
  | symm {t u : Term ι} : Cong E t u → Cong E u t
  | trans {t u v : Term ι} : Cong E t u → Cong E u v → Cong E t v
  | arg {t u : Term ι} (label : ι) (before after : List (Term ι)) : Cong E t u →
      Cong E (.mk label (before ++ t :: after)) (.mk label (before ++ u :: after))

namespace Cong

variable {E E' : List (Term ι × Term ι)} {t u : Term ι}

theorem mono (h : Cong E t u) (hE : E ⊆ E') : Cong E' t u := by
  induction h with
  | base h => exact .base (hE h)
  | refl t => exact .refl t
  | symm _ ih => exact .symm ih
  | trans _ _ ih ih' => exact .trans ih ih'
  | arg label before after _ ih => exact .arg label before after ih

/-- Operators applied to congruent terms. -/
theorem app (label : ι) {ts us : List (Term ι)} (h : List.Forall₂ (Cong E) ts us) :
    Cong E (.mk label ts) (.mk label us) := by
  have hbehind : ∀ before, Cong E (.mk label (before ++ ts)) (.mk label (before ++ us)) := by
    induction h with
    | nil => exact fun before => .refl _
    | @cons t u ts us h _ ih =>
      intro before
      have hrest := ih (before ++ [u])
      simp only [List.append_assoc, List.singleton_append] at hrest
      exact .trans (.arg label before ts h) hrest
  exact hbehind []

/-- **A reading that is compositional and respects the pairs respects the congruence.** -/
theorem respects {f : Term ι → β} (hf : ∀ label ts us, ts.map f = us.map f → f (.mk label ts) = f (.mk label us))
    (hE : ∀ p ∈ E, f p.1 = f p.2) (h : Cong E t u) : f t = f u := by
  induction h with
  | base h => exact hE _ h
  | refl t => rfl
  | symm _ ih => exact ih.symm
  | trans _ _ ih ih' => exact ih.trans ih'
  | arg label before after _ ih =>
    refine hf label _ _ ?_
    rw [List.map_append, List.map_append, List.map_cons, List.map_cons, ih]

end Cong

end Bbq.Lib
