import Mathlib.Order.Basic

/-!
# Computations that keep a log

A computation is given what was done before it, the latest first, and adds what it does.

* `Idle f a`: `f` does nothing and comes to `a`. `Busy f`: it does something. `Grows f`: it undoes nothing.
* **`Exactly P f a`**: `f` is idle, with `a`, where `P` holds, and busy where it does not. The rules carry this along
  the ways in which computations are put together; the condition of a sequence is the conjunction of those of its
  steps.

Nothing here is about a particular log.
-/

namespace Bbq.Lib

variable {ε α β : Type*}

abbrev Logged (ε α : Type*) := List ε → α × List ε

namespace Logged

/-- Nothing is done. -/
def value (a : α) : Logged ε α := fun log => (a, log)

/-- `f`, and then `g`. -/
def andThen (f : Logged ε α) (g : α → Logged ε β) : Logged ε β := fun log => g (f log).1 (f log).2

def Idle (f : Logged ε α) (a : α) : Prop := ∀ log, f log = (a, log)

def Busy (f : Logged ε α) : Prop := ∀ log, log.length < (f log).2.length

def Grows (f : Logged ε α) : Prop := ∀ log, log.length ≤ (f log).2.length

/-- **The condition under which a computation does nothing.** -/
structure Exactly (P : Prop) (f : Logged ε α) (a : α) : Prop where
  idle : P → Idle f a
  busy : ¬P → Busy f
  grows : Grows f

variable {P Q : Prop} {f : Logged ε α} {g : α → Logged ε β} {a : α} {b : β}

theorem Idle.andThen (hf : Idle f a) (hg : Idle (g a) b) : Idle (f.andThen g) b := by
  intro log
  rw [Logged.andThen, hf log]
  exact hg log

theorem Grows.andThen (hf : Grows f) (hg : ∀ a, Grows (g a)) : Grows (f.andThen g) := by
  intro log
  exact Nat.le_trans (hf log) (hg _ _)

theorem Busy.andThen (hf : Busy f) (hg : ∀ a, Grows (g a)) : Busy (f.andThen g) := by
  intro log
  exact Nat.lt_of_lt_of_le (hf log) (hg _ _)

theorem Grows.andThen_busy (hf : Grows f) (hg : ∀ a, Busy (g a)) : Busy (f.andThen g) := by
  intro log
  exact Nat.lt_of_le_of_lt (hf log) (hg _ _)

theorem Idle.andThen_busy (hf : Idle f a) (hg : Busy (g a)) : Busy (f.andThen g) := by
  intro log
  rw [Logged.andThen, hf log]
  exact hg log

namespace Exactly

theorem value (a : α) : Exactly (ε := ε) True (Logged.value a) a where
  idle _ _ := rfl
  busy h := absurd trivial h
  grows _ := Nat.le_refl _

theorem congr (h : Exactly P f a) (hpq : P ↔ Q) : Exactly Q f a where
  idle hq := h.idle (hpq.mpr hq)
  busy hq := h.busy fun hp => hq (hpq.mp hp)
  grows := h.grows

/-- **A sequence.** -/
theorem andThen (hf : Exactly P f a) (hg : Exactly Q (g a) b) (hgrows : ∀ a, Grows (g a)) :
    Exactly (P ∧ Q) (f.andThen g) b where
  idle h := (hf.idle h.1).andThen (hg.idle h.2)
  busy h := by
    by_cases hp : P
    · exact (hf.idle hp).andThen_busy (hg.busy fun hq => h ⟨hp, hq⟩)
    · exact (hf.busy hp).andThen hgrows
  grows := hf.grows.andThen hgrows

/-- A sequence that ends with a function of what its first step came to. -/
theorem map (hf : Exactly P f a) (w : α → β) : Exactly P (f.andThen fun a => Logged.value (w a)) (w a) :=
  (hf.andThen (.value (w a)) fun _ _ => Nat.le_refl _).congr (and_iff_left trivial)

/-- A choice. -/
theorem ite {c : Prop} [Decidable c] {f' : Logged ε α} {a' : α} (hf : c → Exactly P f a)
    (hf' : ¬c → Exactly Q f' a') :
    Exactly (if c then P else Q) (if c then f else f') (if c then a else a') := by
  by_cases h : c
  · rw [if_pos h, if_pos h, if_pos h]
    exact hf h
  · rw [if_neg h, if_neg h, if_neg h]
    exact hf' h

/-- **The log shows it.** -/
theorem unchanged_iff (h : Exactly P f a) (log : List ε) : (f log).2 = log ↔ P := by
  constructor
  · intro hlog
    by_contra hp
    have hbusy := h.busy hp log
    rw [hlog] at hbusy
    exact Nat.lt_irrefl _ hbusy
  · intro hp
    rw [h.idle hp log]

end Exactly

theorem Grows.ite {c : Prop} [Decidable c] {f f' : Logged ε α} (hf : Grows f) (hf' : Grows f') :
    Grows (if c then f else f') := by
  split
  · exact hf
  · exact hf'

end Logged

end Bbq.Lib
