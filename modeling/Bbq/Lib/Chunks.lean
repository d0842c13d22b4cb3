import Bbq.Lib.Splice

/-!
# A text in chunks

A text is put together from chunks, none of them empty. `start` is where a chunk begins.

* `start_lt_iff`, `start_inj`: the chunks begin in their order.
* `flatten_set`, `flatten_eraseIdx`: to replace or remove a chunk replaces or removes a stretch of the text.
* `start_set_gt`, `start_eraseIdx_ge`: the chunks behind it move by what it shrinks.
* `splice_flatten`: a stretch within a chunk is overwritten in the text.

Nothing here is about a particular text.
-/

namespace Bbq.Lib.Chunks

variable {α : Type} {cs : List (List α)} {c d : List α} {i j : Nat}

/-- Where a chunk begins. -/
def start (cs : List (List α)) (i : Nat) : Nat := (cs.take i).flatten.length

@[simp] theorem start_zero : start cs 0 = 0 := rfl

theorem start_length : start cs cs.length = cs.flatten.length := by
  unfold start
  rw [List.take_length]

theorem start_succ (h : cs[i]? = some c) : start cs (i + 1) = start cs i + c.length := by
  unfold start
  rw [List.take_add_one, h, Option.toList_some, List.flatten_append, List.length_append, List.flatten_singleton]

/-- The text around a chunk. -/
theorem flatten_split (h : cs[i]? = some c) :
    cs.flatten = (cs.take i).flatten ++ (c ++ (cs.drop (i + 1)).flatten) := by
  obtain ⟨hlt, rfl⟩ := List.getElem?_eq_some_iff.mp h
  conv_lhs => rw [← List.take_append_drop i cs, List.drop_eq_getElem_cons hlt]
  rw [List.flatten_append, List.flatten_cons]

theorem take_start (cs : List (List α)) (i : Nat) : cs.flatten.take (start cs i) = (cs.take i).flatten := by
  conv_lhs => rw [← List.take_append_drop i cs, List.flatten_append]
  unfold start
  rw [List.take_append_drop]
  exact List.take_left

theorem drop_start (h : cs[i]? = some c) : cs.flatten.drop (start cs i) = c ++ (cs.drop (i + 1)).flatten := by
  rw [flatten_split h]
  exact List.drop_left

theorem drop_start_add (h : cs[i]? = some c) :
    cs.flatten.drop (start cs i + c.length) = (cs.drop (i + 1)).flatten := by
  rw [← List.drop_drop, drop_start h, List.drop_left]

/-! ## Order -/

theorem start_le (hij : i ≤ j) : start cs i ≤ start cs j := by
  unfold start
  rw [← Nat.min_eq_left hij, ← List.take_take, ← take_start]
  exact List.length_take_le' _ _

theorem start_lt (hne : ∀ c ∈ cs, c ≠ []) (hij : i < j) (hi : i < cs.length) : start cs i < start cs j := by
  have hget : cs[i]? = some cs[i] := List.getElem?_eq_getElem hi
  have hpos : 0 < cs[i].length := List.length_pos_iff.mpr (hne _ (List.getElem_mem hi))
  have hle : start cs (i + 1) ≤ start cs j := start_le hij
  rw [start_succ hget] at hle
  omega

theorem start_lt_iff (hne : ∀ c ∈ cs, c ≠ []) (hi : i ≤ cs.length) (hj : j ≤ cs.length) :
    start cs i < start cs j ↔ i < j := by
  refine ⟨fun h => ?_, fun h => start_lt hne h (by omega)⟩
  by_contra hle
  have hge : start cs j ≤ start cs i := start_le (Nat.le_of_not_lt hle)
  omega

theorem start_inj (hne : ∀ c ∈ cs, c ≠ []) (hi : i ≤ cs.length) (hj : j ≤ cs.length) :
    start cs i = start cs j ↔ i = j := by
  have hlt := start_lt_iff hne hi hj
  have hgt := start_lt_iff hne hj hi
  omega

/-! ## Changes -/

theorem flatten_set (h : cs[i]? = some c) (d : List α) :
    (cs.set i d).flatten = cs.flatten.take (start cs i) ++ (d ++ cs.flatten.drop (start cs i + c.length)) := by
  obtain ⟨hlt, -⟩ := List.getElem?_eq_some_iff.mp h
  rw [List.set_eq_take_append_cons_drop, if_pos hlt, List.flatten_append, List.flatten_cons, take_start,
    drop_start_add h]

theorem flatten_eraseIdx (h : cs[i]? = some c) :
    (cs.eraseIdx i).flatten = cs.flatten.take (start cs i) ++ cs.flatten.drop (start cs i + c.length) := by
  rw [List.eraseIdx_eq_take_drop_succ, List.flatten_append, take_start, drop_start_add h]

theorem start_set_le (d : List α) (hj : j ≤ i) : start (cs.set i d) j = start cs j := by
  unfold start
  rw [List.take_set_of_le hj]

theorem start_set_gt (h : cs[i]? = some c) (d : List α) (hj : i < j) :
    start (cs.set i d) j + c.length = start cs j + d.length := by
  obtain ⟨hlt, rfl⟩ := List.getElem?_eq_some_iff.mp h
  unfold start
  have htake : (cs.take j)[i]? = some cs[i] := by
    rw [List.getElem?_take_of_lt hj, h]
  have hsplit := congrArg List.length (flatten_split htake)
  rw [List.take_set, flatten_set htake, take_start, drop_start_add htake]
  simp only [List.length_append] at hsplit ⊢
  omega

theorem start_eraseIdx_le (hj : j ≤ i) : start (cs.eraseIdx i) j = start cs j := by
  have htake : (cs.eraseIdx i).take j = cs.take j := by
    refine List.ext_getElem? fun n => ?_
    rw [List.getElem?_take, List.getElem?_take]
    by_cases hn : n < j
    · rw [if_pos hn, if_pos hn, List.getElem?_eraseIdx_of_lt (by omega)]
    · rw [if_neg hn, if_neg hn]
  unfold start
  rw [htake]

theorem start_eraseIdx_ge (h : cs[i]? = some c) (hj : i ≤ j) :
    start (cs.eraseIdx i) j + c.length = start cs (j + 1) := by
  have htake : (cs.take (j + 1))[i]? = some c := by
    rw [List.getElem?_take_of_lt (by omega), h]
  have hsplit := congrArg List.length (flatten_split htake)
  unfold start
  have herase : (cs.eraseIdx i).take j = (cs.take (j + 1)).eraseIdx i := by
    refine List.ext_getElem? fun n => ?_
    rw [List.getElem?_take, List.getElem?_eraseIdx, List.getElem?_eraseIdx, List.getElem?_take, List.getElem?_take]
    by_cases hn : n < i
    · rw [if_pos (by omega), if_pos hn, if_pos hn, if_pos (by omega)]
    · rw [if_neg hn, if_neg hn]
      by_cases hnj : n < j
      · rw [if_pos hnj, if_pos (by omega)]
      · rw [if_neg hnj, if_neg (by omega)]
  rw [herase, flatten_eraseIdx htake, take_start, drop_start_add htake]
  simp only [List.length_append] at hsplit ⊢
  omega

theorem splice_flatten {a b t : List α} (h : cs[i]? = some (a ++ (b ++ t))) (b' : List α)
    (hlen : b'.length = b.length) : splice cs.flatten (start cs i + a.length) b' =
      (cs.set i (a ++ (b' ++ t))).flatten := by
  have hstart : start cs i + a.length = ((cs.take i).flatten ++ a).length := (List.length_append ..).symm
  have htext : cs.flatten = ((cs.take i).flatten ++ a) ++ (b ++ (t ++ (cs.drop (i + 1)).flatten)) := by
    rw [flatten_split h]
    simp only [List.append_assoc]
  rw [flatten_set h, take_start, drop_start_add h, splice, hstart, htext, List.take_left, hlen, ← List.length_append,
    ← List.append_assoc _ b, List.drop_left]
  simp only [List.append_assoc]

end Bbq.Lib.Chunks
