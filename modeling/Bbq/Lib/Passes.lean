import Mathlib.Order.Basic
import Bbq.Lib.Settle

/-!
# Passes until nothing changes

A pass takes the items of a list one after the other, and sets a flag when it changes something. There is another pass as
long as the flag is set.

* `Passing`: an item is `done` after its step, unless the step is loud: then the flag is set and the size has gone down. A
  step that is not loud undoes nothing.
* **`foldl_passing`**: a pass that leaves the flag as it was has all items done.
* **`passes_done`**: a bounded number of passes is enough. **`passes_settle`**: so do passes without a bound end.

Nothing here is about a particular state.
-/

namespace Bbq.Lib

variable {σ α : Type*}

/-- What a step of a pass does. -/
structure Passing (inv : σ → Prop) (ok : α → Prop) (flag : σ → Bool) (step : σ → α → σ) (size : σ → Nat)
    (quiet : σ → σ → Prop) (done : α → σ → Prop) : Prop where
  refl : ∀ s, quiet s s
  trans : ∀ {s s' s''}, quiet s s' → quiet s' s'' → quiet s s''
  same : ∀ {s s'}, quiet s s' → size s' = size s
  keeps : ∀ {a s s'}, quiet s s' → done a s → done a s'
  stays : ∀ {s}, inv s → ∀ {a}, ok a → inv (step s a)
  stepped : ∀ {s}, inv s → ∀ {a}, ok a → quiet s (step s a) ∧ flag (step s a) = flag s ∧ done a (step s a) ∨
    flag (step s a) = true ∧ size (step s a) < size s

variable {inv : σ → Prop} {ok : α → Prop} {flag : σ → Bool} {step : σ → α → σ} {size : σ → Nat} {quiet : σ → σ → Prop}
  {done : α → σ → Prop}

/-- **A pass**: it has all items done, or it is loud. -/
theorem foldl_passing (h : Passing inv ok flag step size quiet done) {l : List α} (hl : ∀ a ∈ l, ok a) :
    ∀ {s : σ}, inv s → inv (l.foldl step s) ∧ (quiet s (l.foldl step s) ∧ flag (l.foldl step s) = flag s ∧
      (∀ a ∈ l, done a (l.foldl step s)) ∨ flag (l.foldl step s) = true ∧ size (l.foldl step s) < size s) := by
  induction l with
  | nil => exact fun {s} hs => ⟨hs, .inl ⟨h.refl s, rfl, fun a ha => absurd ha List.not_mem_nil⟩⟩
  | cons a l ih =>
    intro s hs
    rw [List.foldl_cons]
    have hok := hl a List.mem_cons_self
    obtain ⟨hinv, hrest⟩ := ih (fun b hb => hl b (List.mem_cons_of_mem _ hb)) (h.stays hs hok)
    refine ⟨hinv, ?_⟩
    rcases h.stepped hs hok with ⟨hquiet, hflag, ha⟩ | ⟨hflag, hsize⟩
    · rcases hrest with ⟨hquiet', hflag', hall⟩ | ⟨hflag', hsize'⟩
      · refine .inl ⟨h.trans hquiet hquiet', hflag'.trans hflag, fun b hb => ?_⟩
        rcases List.mem_cons.mp hb with rfl | hb
        · exact h.keeps hquiet' ha
        · exact hall b hb
      · exact .inr ⟨hflag', by rw [h.same hquiet] at hsize'; exact hsize'⟩
    · rcases hrest with ⟨hquiet', hflag', -⟩ | ⟨hflag', hsize'⟩
      · exact .inr ⟨hflag'.trans hflag, by rw [h.same hquiet']; exact hsize⟩
      · exact .inr ⟨hflag', hsize'.trans hsize⟩

variable (flag step) (reset : σ → σ) (l : List α)

/-- At most so many passes. -/
def passes : Nat → σ → σ
  | 0, s => s
  | n + 1, s =>
    let s := l.foldl step (reset s)
    if flag s then passes n s else s

variable {flag step}

/-- **More passes than the size** leave all items done. -/
theorem passes_done (h : Passing inv ok flag step size quiet done) (hl : ∀ a ∈ l, ok a)
    (hreset : ∀ s, inv s → inv (reset s) ∧ flag (reset s) = false ∧ size (reset s) = size s) {n : Nat} {s : σ}
    (hs : inv s) (hn : size s < n) :
    inv (passes flag step reset l n s) ∧ ∀ a ∈ l, done a (passes flag step reset l n s) := by
  induction n generalizing s with
  | zero => exact absurd hn (Nat.not_lt_zero _)
  | succ n ih =>
    obtain ⟨hinv, hflag, hsize⟩ := hreset s hs
    obtain ⟨hend, hpass⟩ := foldl_passing h hl hinv
    unfold passes
    dsimp only
    rcases hpass with ⟨-, hquiet, hall⟩ | ⟨hloud, hless⟩
    · rw [hquiet, hflag]
      exact ⟨hend, hall⟩
    · rw [hloud]
      exact ih hend (by rw [hsize] at hless; omega)

/-- What every pass keeps. -/
theorem passes_keep {P : σ → Prop} (hreset : ∀ s, P s → P (reset s)) (hstep : ∀ s, P s → ∀ a ∈ l, P (step s a)) (n : Nat)
    {s : σ} (hs : P s) : P (passes flag step reset l n s) := by
  induction n generalizing s with
  | zero => exact hs
  | succ n ih =>
    have hpass : P (l.foldl step (reset s)) :=
      List.foldlRecOn l step (hreset s hs) fun t ht a ha => hstep t ht a ha
    unfold passes
    dsimp only
    split
    · exact ih hpass
    · exact hpass

/-- **Passes without a bound** end, with all items done. -/
theorem passes_settle (h : Passing inv ok flag step size quiet done) (hl : ∀ a ∈ l, ok a)
    (hreset : ∀ s, inv s → inv (reset s) ∧ flag (reset s) = false ∧ size (reset s) = size s) {s : σ} (hs : inv s) :
    ∃ s', Settles (fun fuel => loop (fun s => some (if flag (l.foldl step (reset s)) then .inl (l.foldl step (reset s))
      else .inr (l.foldl step (reset s)))) fuel s) s' ∧ inv s' ∧ ∀ a ∈ l, done a s' := by
  refine settles_loop (P := inv) (Q := fun s' => inv s' ∧ ∀ a ∈ l, done a s')
    (fun _ s => some (if flag (l.foldl step (reset s)) then .inl (l.foldl step (reset s))
      else .inr (l.foldl step (reset s)))) size (fun s hs => ?_) s hs
  obtain ⟨hinv, hflag, hsize⟩ := hreset s hs
  obtain ⟨hend, hpass⟩ := foldl_passing h hl hinv
  refine ⟨_, .const _, fun s' hgo => ?_, fun s' hleave => ?_⟩
  · split at hgo
    · next hloud =>
      obtain rfl := Sum.inl.inj hgo
      rcases hpass with ⟨-, hquiet, -⟩ | ⟨-, hless⟩
      · rw [hquiet, hflag] at hloud
        cases hloud
      · exact ⟨by rw [hsize] at hless; exact hless, hend⟩
    · cases hgo
  · split at hleave
    · cases hleave
    · next hquiet =>
      obtain rfl := Sum.inr.inj hleave
      rcases hpass with ⟨-, -, hall⟩ | ⟨hloud, -⟩
      · exact ⟨hend, hall⟩
      · exact absurd hloud hquiet

end Bbq.Lib
