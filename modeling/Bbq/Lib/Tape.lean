import Mathlib.Data.List.Basic

/-!
# A tape with one end

A tape is written at its end, and its end can be moved: back, which drops what lay behind, or forward, over
blanks. `picture_iff` says when every write is still where it was put once all moves are done: where the end
was moved back over a cell, that cell had better be blank.
-/

namespace Bbq.Lib.Tape

variable {α : Type} {blank : α} {tape : List α} {moves pre post : List (List α ⊕ Nat)} {c t y : Nat} {xs : List α}

/-- Move the end to a position. -/
def goTo (blank : α) (t : Nat) (tape : List α) : List α := tape.take t ++ List.replicate (t - tape.length) blank

/-- A move: a write at the end, or a position to go to. -/
def act (blank : α) (tape : List α) : List α ⊕ Nat → List α
  | .inl xs => tape ++ xs
  | .inr t => goTo blank t tape

def run (blank : α) (tape : List α) (moves : List (List α ⊕ Nat)) : List α := moves.foldl (act blank) tape

/-- Where the end is. -/
def finish (c : Nat) : List (List α ⊕ Nat) → Nat
  | [] => c
  | .inl xs :: moves => finish (c + xs.length) moves
  | .inr t :: moves => finish t moves

/-- What was written, and where. -/
def places (c : Nat) : List (List α ⊕ Nat) → List (Nat × List α)
  | [] => []
  | .inl xs :: moves => (c, xs) :: places (c + xs.length) moves
  | .inr t :: moves => places t moves

/-- A write covers a cell. -/
def Covers (p : Nat × List α) (y : Nat) : Prop := p.1 ≤ y ∧ y < p.1 + p.2.length

/-- No cell is written twice. -/
def Disjoint (ps : List (Nat × List α)) : Prop := ps.Pairwise fun p q => ∀ y, Covers p y → ¬ Covers q y

/-- The end is never moved to a cell or before it. -/
def Stays (y : Nat) (moves : List (List α ⊕ Nat)) : Prop := ∀ t, .inr t ∈ moves → y < t

/-- What is written is on the tape, and the rest of it is blank. -/
structure Picture (blank : α) (ps : List (Nat × List α)) (tape : List α) : Prop where
  written : ∀ p ∈ ps, ∀ (x : Nat) (a : α), p.2[x]? = some a → tape[p.1 + x]? = some a
  blank : ∀ y, y < tape.length → (∀ p ∈ ps, ¬ Covers p y) → tape[y]? = some blank

/-- A cell the end is moved back over is blank, and before the last end. -/
def Kept (blank : α) (moves : List (List α ⊕ Nat)) : Prop :=
  ∀ pre xs post, moves = pre ++ .inl xs :: post → ∀ (x : Nat) (a : α), xs[x]? = some a →
    Stays (finish 0 pre + x) post ∨ a = blank ∧ finish 0 pre + x < finish 0 moves

/-! ## Moves -/

theorem length_goTo : (goTo blank t tape).length = t := by
  rw [goTo, List.length_append, List.length_take, List.length_replicate]
  omega

theorem goTo_length : goTo blank tape.length tape = tape := by
  rw [goTo, List.take_length, Nat.sub_self, List.replicate_zero, List.append_nil]

theorem getElem?_goTo (hy : y < t) : (goTo blank t tape)[y]? = if y < tape.length then tape[y]? else some blank := by
  unfold goTo
  by_cases hlt : y < tape.length
  · rw [if_pos hlt, List.getElem?_append_left (by rw [List.length_take]; omega), List.getElem?_take, if_pos hy]
  · rw [if_neg hlt, List.getElem?_append_right (by rw [List.length_take]; omega), List.length_take,
      List.getElem?_replicate, if_pos (by omega)]

theorem length_run : (run blank tape moves).length = finish tape.length moves := by
  induction moves generalizing tape with
  | nil => rfl
  | cons m moves ih =>
    cases m with
    | inl xs =>
      have h := @ih (tape ++ xs)
      rwa [List.length_append] at h
    | inr t =>
      have h := @ih (goTo blank t tape)
      rwa [length_goTo] at h

theorem run_append : run blank tape (pre ++ post) = run blank (run blank tape pre) post := List.foldl_append

theorem finish_append : finish c (pre ++ post) = finish (finish c pre) post := by
  induction pre generalizing c with
  | nil => rfl
  | cons m pre ih => cases m <;> exact ih

theorem places_append : places c (pre ++ post) = places c pre ++ places (finish c pre) post := by
  induction pre generalizing c with
  | nil => rfl
  | cons m pre ih =>
    cases m with
    | inl xs => exact congrArg ((c, xs) :: ·) ih
    | inr t => exact ih

theorem exists_of_mem_places {p : Nat × List α} (hp : p ∈ places c moves) :
    ∃ pre post, moves = pre ++ .inl p.2 :: post ∧ p.1 = finish c pre := by
  induction moves generalizing c with
  | nil => cases hp
  | cons m moves ih =>
    cases m with
    | inl xs =>
      rcases List.mem_cons.1 hp with rfl | hp
      · exact ⟨[], moves, rfl, rfl⟩
      · obtain ⟨pre, post, rfl, hpre⟩ := ih hp
        exact ⟨.inl xs :: pre, post, rfl, hpre⟩
    | inr t =>
      obtain ⟨pre, post, rfl, hpre⟩ := ih hp
      exact ⟨.inr t :: pre, post, rfl, hpre⟩

/-! ## Cells -/

theorem lt_finish (hs : Stays y moves) (hy : y < c) : y < finish c moves := by
  induction moves generalizing c with
  | nil => exact hy
  | cons m moves ih =>
    have hs' : Stays y moves := fun t ht => hs t (List.mem_cons_of_mem _ ht)
    cases m with
    | inl xs => exact ih hs' (Nat.lt_add_right _ hy)
    | inr t => exact ih hs' (hs t List.mem_cons_self)

/-- A cell that no later write covers: as it was, unless the end was moved over it. -/
theorem getElem?_run (hfree : ∀ p ∈ places tape.length moves, ¬ Covers p y) (hy : y < finish tape.length moves) :
    (y < tape.length ∧ Stays y moves → (run blank tape moves)[y]? = tape[y]?) ∧
      (¬ (y < tape.length ∧ Stays y moves) → (run blank tape moves)[y]? = some blank) := by
  induction moves generalizing tape with
  | nil => exact ⟨fun _ => rfl, fun h => absurd ⟨hy, (fun _ ht => nomatch ht)⟩ h⟩
  | cons m moves ih =>
    cases m with
    | inl xs =>
      have hxs : y < (tape ++ xs).length ↔ y < tape.length := by
        have hnot : ¬ (tape.length ≤ y ∧ y < tape.length + xs.length) := hfree (tape.length, xs) List.mem_cons_self
        rw [List.length_append]
        omega
      have hstays : Stays y (.inl xs :: moves) ↔ Stays y moves := by
        simp only [Stays, List.mem_cons, reduceCtorEq, false_or]
      have hlen : (tape ++ xs).length = tape.length + xs.length := List.length_append
      have hfree' : ∀ p ∈ places (tape ++ xs).length moves, ¬ Covers p y := fun p hp =>
        hfree p (List.mem_cons_of_mem _ (hlen ▸ hp))
      obtain ⟨hkept, hlost⟩ := ih hfree' (hlen.symm ▸ hy)
      rw [hxs] at hkept hlost
      rw [hstays]
      refine ⟨fun h => ?_, hlost⟩
      rw [← List.getElem?_append_left h.1]
      exact hkept h
    | inr t =>
      have hlen : (goTo blank t tape).length = t := length_goTo
      have hstays : Stays y (.inr t :: moves) ↔ y < t ∧ Stays y moves := by
        constructor
        · intro h
          exact ⟨h t List.mem_cons_self, fun u hu => h u (List.mem_cons_of_mem _ hu)⟩
        · rintro ⟨ht, h⟩ u hu
          rcases List.mem_cons.1 hu with hu | hu
          · cases hu
            exact ht
          · exact h u hu
      obtain ⟨hkept, hlost⟩ := @ih (goTo blank t tape) (hlen.symm ▸ hfree) (hlen.symm ▸ hy)
      rw [hlen] at hkept hlost
      rw [hstays]
      constructor
      · rintro ⟨hlt, ht, hs⟩
        have h := hkept ⟨ht, hs⟩
        rw [getElem?_goTo ht, if_pos hlt] at h
        exact h
      · intro hnot
        by_cases hts : y < t ∧ Stays y moves
        · have h := hkept hts
          rw [getElem?_goTo hts.1, if_neg fun hlt => hnot ⟨hlt, hts⟩] at h
          exact h
        · exact hlost hts

/-- **Exactness.** Every write is where it was put exactly if the end is moved back over blank cells only. -/
theorem picture_iff (hd : Disjoint (places 0 moves)) :
    Picture blank (places 0 moves) (run blank [] moves) ↔ Kept blank moves := by
  have hlen : (run blank [] moves).length = finish 0 moves := length_run
  have hcell : ∀ {pre post : List (List α ⊕ Nat)} {xs : List α}, moves = pre ++ .inl xs :: post → ∀ {x : Nat} {a : α},
      xs[x]? = some a → finish 0 pre + x < finish 0 moves →
      (Stays (finish 0 pre + x) post → (run blank [] moves)[finish 0 pre + x]? = some a) ∧
        (¬ Stays (finish 0 pre + x) post → (run blank [] moves)[finish 0 pre + x]? = some blank) := by
    intro pre post xs he x a ha hlt
    have hx := (List.getElem?_eq_some_iff.1 ha).1
    subst he
    have hpre : (run blank [] pre).length = finish 0 pre := length_run
    have hfull : (run blank [] pre ++ xs).length = finish 0 pre + xs.length := by rw [List.length_append, hpre]
    rw [places_append] at hd
    have hlater := (List.pairwise_cons.1 (List.pairwise_append.1 hd).2.1).1
    have hfree : ∀ p ∈ places (run blank [] pre ++ xs).length post, ¬ Covers p (finish 0 pre + x) := by
      intro p hp
      rw [hfull] at hp
      exact hlater p hp _ ⟨Nat.le_add_right _ _, Nat.add_lt_add_left hx _⟩
    rw [finish_append] at hlt
    obtain ⟨hkept, hlost⟩ := @getElem?_run α blank _ _ _ hfree (by rw [hfull]; exact hlt)
    rw [hfull] at hkept hlost
    rw [run_append]
    refine ⟨fun hs => ?_, fun hs => hlost fun h => hs h.2⟩
    rw [show run blank (run blank [] pre) (.inl xs :: post) = run blank (run blank [] pre ++ xs) post from rfl,
      hkept ⟨Nat.add_lt_add_left hx _, hs⟩, List.getElem?_append_right (by omega), hpre, Nat.add_sub_cancel_left, ha]
  constructor
  · intro hp pre xs post he x a ha
    have hmem : (finish 0 pre, xs) ∈ places 0 moves := by
      rw [he, places_append]
      exact List.mem_append_right _ List.mem_cons_self
    have hget := hp.written _ hmem x a ha
    have hlt := (List.getElem?_eq_some_iff.1 hget).1
    rw [hlen] at hlt
    by_cases hs : Stays (finish 0 pre + x) post
    · exact .inl hs
    · rw [(hcell he ha hlt).2 hs] at hget
      exact .inr ⟨(Option.some.inj hget).symm, hlt⟩
  · intro hk
    refine ⟨fun p hp x a ha => ?_, fun y hy hfree => ?_⟩
    · obtain ⟨pre, post, he, hpre⟩ := exists_of_mem_places hp
      rw [hpre]
      rcases hk pre p.2 post he x a ha with hs | ⟨rfl, hlt⟩
      · have hlt : finish 0 pre + x < finish 0 moves := by
          have hx := (List.getElem?_eq_some_iff.1 ha).1
          have hend : finish 0 moves = finish (finish 0 pre + p.2.length) post := by
            rw [he, finish_append]
            rfl
          rw [hend]
          exact lt_finish hs (Nat.add_lt_add_left hx _)
        exact (hcell he ha hlt).1 hs
      · by_cases hs : Stays (finish 0 pre + x) post
        · exact (hcell he ha hlt).1 hs
        · exact (hcell he ha hlt).2 hs
    · rw [hlen] at hy
      exact (getElem?_run hfree hy).2 fun h => absurd h.1 (Nat.not_lt_zero y)

end Bbq.Lib.Tape
