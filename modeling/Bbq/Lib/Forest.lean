import Mathlib.Data.List.Nodup
import Mathlib.Data.List.Perm.Subperm
import Mathlib.Data.List.Range
import Mathlib.Logic.Function.Basic

/-!
# Forests given by a parent function

`up` sends everything to its parent, and a root to itself.

* `Above up k x r`: the root `r` is `k` steps above `x`.
* `Rooted up`: there is a root above everything.
* Two changes of a forest: an element is hung two steps up (`halve`), which moves no root, and a root is
  hung below another one (`link`), which gives everything under it the other root.
* `above_lt`: among `n` elements no root is `n` steps away.

Nothing here is about a particular forest.
-/

namespace Bbq.Lib.Forest

variable {ν : Type}

/-- The root `r` is `k` steps above `x`. -/
inductive Above (up : ν → ν) : Nat → ν → ν → Prop
  | root {r : ν} : up r = r → Above up 0 r r
  | step {k : Nat} {x r : ν} : up x ≠ x → Above up k (up x) r → Above up (k + 1) x r

/-- There is a root above everything. -/
def Rooted (up : ν → ν) : Prop := ∀ x, ∃ k r, Above up k x r

namespace Above

variable {up : ν → ν} {j k : Nat} {x r s : ν}

theorem up_root (h : Above up k x r) : up r = r := by
  induction h with
  | root h => exact h
  | step _ _ ih => exact ih

theorem unique (h : Above up j x r) (h' : Above up k x s) : j = k ∧ r = s := by
  induction h generalizing k with
  | root h =>
    cases h' with
    | root _ => exact ⟨rfl, rfl⟩
    | step hne _ => exact absurd h hne
  | step hne _ ih =>
    cases h' with
    | root h => exact absurd h hne
    | step _ h' =>
      obtain ⟨rfl, rfl⟩ := ih h'
      exact ⟨rfl, rfl⟩

theorem of_root (h : up x = x) (h' : Above up k x r) : k = 0 ∧ r = x := by
  obtain ⟨rfl, rfl⟩ := h'.unique (.root h)
  exact ⟨rfl, rfl⟩

theorem of_step (hne : up x ≠ x) (h : Above up k x r) : ∃ j, k = j + 1 ∧ Above up j (up x) r := by
  cases h with
  | root h => exact absurd h hne
  | step _ h => exact ⟨_, rfl, h⟩

end Above

section Halve

variable {up : ν → ν} [DecidableEq ν]

/-- `x` is hung from its grandparent. -/
def halve (up : ν → ν) (x : ν) : ν → ν := Function.update up x (up (up x))

/-- Halving takes nothing further from its root. -/
theorem Above.halve {k : Nat} {y r : ν} (h : Above up k y r) (x : ν) : ∃ j ≤ k, Above (halve up x) j y r := by
  induction k using Nat.strong_induction_on generalizing y with
  | _ k ih =>
    have hstay : ∀ z, z ≠ x → Forest.halve up x z = up z := fun z hz => Function.update_of_ne hz _ _
    have hmoved : Forest.halve up x x = up (up x) := Function.update_self ..
    cases h with
    | root hroot =>
      refine ⟨0, le_refl 0, .root ?_⟩
      by_cases hy : r = x
      · rw [hy, hmoved, ← hy, hroot, hroot]
      · rw [hstay r hy, hroot]
    | @step k _ _ hne h =>
      by_cases hy : y = x
      · subst hy
        by_cases hroot : up (up y) = up y
        · obtain ⟨rfl, rfl⟩ := h.of_root hroot
          obtain ⟨j, hj, h⟩ := ih 0 (by omega) h
          refine ⟨j + 1, by omega, .step ?_ ?_⟩
          · rw [hmoved, hroot]
            exact hne
          · rw [hmoved, hroot]
            exact h
        · obtain ⟨i, rfl, hup⟩ := h.of_step hroot
          have hcycle : up (up y) ≠ y := by
            intro hc
            rw [hc] at hup
            obtain ⟨hi, -⟩ := hup.unique (.step hne h)
            omega
          obtain ⟨j, hj, hup⟩ := ih i (by omega) hup
          refine ⟨j + 1, by omega, .step ?_ ?_⟩
          · rw [hmoved]
            exact hcycle
          · rw [hmoved]
            exact hup
      · obtain ⟨j, hj, h⟩ := ih k (by omega) h
        refine ⟨j + 1, by omega, .step ?_ ?_⟩
        · rw [hstay y hy]
          exact hne
        · rw [hstay y hy]
          exact h

end Halve

section Link

variable {up : ν → ν} [DecidableEq ν] {a b : ν}

/-- The root `b` is hung below `a`. -/
def link (up : ν → ν) (a b : ν) : ν → ν := Function.update up b a

/-- What was below `b` is below `a` now. -/
theorem Above.link {k : Nat} {y r : ν} (h : Above up k y r) (ha : up a = a) (hb : up b = b) (hne : a ≠ b) :
    ∃ j, Above (link up a b) j y (if r = b then a else r) := by
  have hstay : ∀ z, z ≠ b → Forest.link up a b z = up z := fun z hz => Function.update_of_ne hz _ _
  have hmoved : Forest.link up a b b = a := Function.update_self ..
  have htop : Above (Forest.link up a b) 0 a a := .root (by rw [hstay a hne, ha])
  induction h with
  | @root r hroot =>
    by_cases hr : r = b
    · subst hr
      rw [if_pos rfl]
      exact ⟨1, .step (by rw [hmoved]; exact hne) (by rw [hmoved]; exact htop)⟩
    · rw [if_neg hr]
      exact ⟨0, .root (by rw [hstay r hr, hroot])⟩
  | @step k y r hstep _ ih =>
    obtain ⟨j, hj⟩ := ih
    have hy : y ≠ b := by
      rintro rfl
      exact hstep hb
    exact ⟨j + 1, .step (by rw [hstay y hy]; exact hstep) (by rw [hstay y hy]; exact hj)⟩

end Link

/-! ## Finitely many elements -/

section Finite

variable {up : ν → ν}

/-- The elements on the way to the root are different, and there is one more of them than steps. -/
theorem Above.path {P : ν → Prop} (hP : ∀ x, P x → P (up x)) {k : Nat} {x r : ν} (h : Above up k x r) (hx : P x) :
    ∃ l : List ν, l.length = k + 1 ∧ l.Nodup ∧ ∀ y ∈ l, P y ∧ ∃ j ≤ k, Above up j y r := by
  induction h with
  | @root r hroot =>
    refine ⟨[r], rfl, List.nodup_singleton r, fun y hy => ?_⟩
    obtain rfl := List.mem_singleton.mp hy
    exact ⟨hx, 0, le_refl 0, .root hroot⟩
  | @step k x r hne h ih =>
    obtain ⟨l, hlen, hnodup, hl⟩ := ih (hP x hx)
    refine ⟨x :: l, by rw [List.length_cons, hlen], List.nodup_cons.mpr ⟨fun hmem => ?_, hnodup⟩, fun y hy => ?_⟩
    · obtain ⟨-, j, hj, habove⟩ := hl x hmem
      obtain ⟨hk, -⟩ := habove.unique (.step hne h)
      omega
    · rcases List.mem_cons.mp hy with rfl | hy
      · exact ⟨hx, k + 1, le_refl _, .step hne h⟩
      · obtain ⟨hy, j, hj, habove⟩ := hl y hy
        exact ⟨hy, j, by omega, habove⟩

/-- Among `n` elements no root is `n` steps away. -/
theorem above_lt {up : Nat → Nat} {n : Nat} (hup : ∀ x, x < n → up x < n) {k x r : Nat} (h : Above up k x r)
    (hx : x < n) : k < n := by
  obtain ⟨l, hlen, hnodup, hl⟩ := h.path hup hx
  have hsub : l ⊆ List.range n := fun y hy => List.mem_range.mpr (hl y hy).1
  have hle := (List.subperm_of_subset hnodup hsub).length_le
  rw [hlen, List.length_range] at hle
  omega

end Finite

end Bbq.Lib.Forest
