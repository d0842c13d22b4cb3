import Mathlib.Data.List.Basic

/-!
# Overwriting a stretch of a list

`splice xs n ys` is `xs` with `ys` in the place of what was at `n` and behind.

Nothing here is about a particular list.
-/

namespace Bbq.Lib

variable {α : Type} {xs ys : List α} {n i : Nat}

/-- `xs` with `ys` from position `n` on. -/
def splice (xs : List α) (n : Nat) (ys : List α) : List α := xs.take n ++ ys ++ xs.drop (n + ys.length)

/-- One element is overwritten that the next one more of the list takes in. -/
theorem take_set_succ (x : α) (hn : n < xs.length) : (xs.set n x).take (n + 1) = xs.take n ++ [x] := by
  have hget : (xs.set n x)[n]? = some x := List.getElem?_set_self hn
  rw [List.take_add_one, hget, List.take_set_of_le (Nat.le_refl n)]
  rfl

/-- One element is overwritten that a first part of the list leaves out, or has already. -/
theorem take_set_same (x : α) (h : i < n → xs[i]? = some x) : (xs.set i x).take n = xs.take n := by
  by_cases hi : i < n
  · obtain ⟨hlt, hget⟩ := List.getElem?_eq_some_iff.mp (h hi)
    rw [← hget, List.set_getElem_self]
  · exact List.take_set_of_le (Nat.le_of_not_lt hi)

theorem length_splice (h : n + ys.length ≤ xs.length) : (splice xs n ys).length = xs.length := by
  rw [splice, List.length_append, List.length_append, List.length_take, List.length_drop]
  omega

theorem getElem?_splice (h : n + ys.length ≤ xs.length) :
    (splice xs n ys)[i]? = if n ≤ i ∧ i < n + ys.length then ys[i - n]? else xs[i]? := by
  have htake : (xs.take n).length = n := by
    rw [List.length_take]
    omega
  rw [splice]
  by_cases hlow : i < n
  · rw [if_neg (by omega), List.append_assoc, List.getElem?_append_left (by rw [htake]; exact hlow),
      List.getElem?_take_of_lt hlow]
  · by_cases hmid : i < n + ys.length
    · rw [if_pos (by omega), List.append_assoc, List.getElem?_append_right (by rw [htake]; omega), htake,
        List.getElem?_append_left (by omega)]
    · rw [if_neg (by omega), List.getElem?_append_right (by rw [List.length_append, htake]; omega),
        List.getElem?_drop, List.length_append, htake]
      congr 1
      omega

/-- A prefix that contains the stretch. -/
theorem take_splice {m : Nat} (h : n + ys.length ≤ m) : (splice xs n ys).take m = splice (xs.take m) n ys := by
  by_cases hlen : n ≤ xs.length
  · have htake : (xs.take n ++ ys).length = n + ys.length := by
      rw [List.length_append, List.length_take]
      omega
    rw [splice, splice, List.take_append, htake, List.take_of_length_le (by rw [htake]; exact h), List.drop_take,
      List.take_take, Nat.min_eq_left (by omega)]
  · have hdrop : xs.drop (n + ys.length) = [] := List.drop_eq_nil_of_le (by omega)
    have hxs : xs.take m = xs := List.take_of_length_le (by omega)
    rw [splice, splice, hxs, hdrop, List.append_nil, List.take_of_length_le]
    rw [List.length_append, List.length_take]
    omega

end Bbq.Lib
