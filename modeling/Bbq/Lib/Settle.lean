import Mathlib.Data.Option.Basic
import Mathlib.Data.Nat.Basic

/-!
# Runs on fuel

A computation that need not end is run on fuel and gives `none` where the fuel is used up.

* `Settles f a`: with enough fuel `f` comes to `a`, and more fuel does not change that.
* `loop` goes round a body that says at each round whether to go on.
* **`settles_loop`** is the rule for total correctness: a measure that falls at every round.
  **`loop_inv`** is the one for partial correctness: what every round keeps holds at the end.

Nothing here is about a particular computation.
-/

namespace Bbq.Lib

variable {α β γ : Type*}

/-- With enough fuel `f` gives `a`. -/
def Settles (f : Nat → Option α) (a : α) : Prop := ∃ enough, ∀ n, enough ≤ n → f n = some a

namespace Settles

theorem of_forall {f : Nat → Option α} {a : α} (h : ∀ n, f n = some a) : Settles f a := ⟨0, fun n _ => h n⟩

theorem const (a : α) : Settles (fun _ => some a) a := of_forall fun _ => rfl

theorem bind {f : Nat → Option α} {g : Nat → α → Option β} {a : α} {b : β} (hf : Settles f a)
    (hg : Settles (fun n => g n a) b) : Settles (fun n => (f n).bind (g n)) b := by
  obtain ⟨N, hN⟩ := hf
  obtain ⟨M, hM⟩ := hg
  refine ⟨max N M, fun n hn => ?_⟩
  simp only [hN n (le_trans (le_max_left N M) hn), Option.bind_some]
  exact hM n (le_trans (le_max_right N M) hn)

theorem map {f : Nat → Option α} {a : α} (h : Settles f a) (g : α → β) :
    Settles (fun n => (f n).map g) (g a) := by
  obtain ⟨N, hN⟩ := h
  exact ⟨N, fun n hn => by simp only [hN n hn, Option.map_some]⟩

/-- One unit of fuel is spent before `f` begins. -/
theorem of_succ {f : Nat → Option α} {a : α} (h : Settles (fun n => f (n + 1)) a) : Settles f a := by
  obtain ⟨N, hN⟩ := h
  refine ⟨N + 1, fun n hn => ?_⟩
  obtain ⟨k, rfl⟩ : ∃ k, n = k + 1 := ⟨n - 1, by omega⟩
  exact hN k (by omega)

/-- What `f` does on little fuel does not matter. -/
theorem of_enough {f g : Nat → Option α} {a : α} (enough : Nat) (h : Settles f a)
    (heq : ∀ n, enough < n → g n = f n) : Settles g a := by
  obtain ⟨N, hN⟩ := h
  refine ⟨max N (enough + 1), fun n hn => ?_⟩
  rw [heq n (le_trans (le_max_right _ _) hn)]
  exact hN n (le_trans (le_max_left _ _) hn)

theorem unique {f : Nat → Option α} {a b : α} (ha : Settles f a) (hb : Settles f b) : a = b := by
  obtain ⟨N, hN⟩ := ha
  obtain ⟨M, hM⟩ := hb
  have heq := (hN (max N M) (le_max_left N M)).symm.trans (hM (max N M) (le_max_right N M))
  exact Option.some.inj heq

/-- A run that settles ends on some amount of fuel. -/
theorem ends {f : Nat → Option α} {a : α} (h : Settles f a) : ∃ n, f n = some a := by
  obtain ⟨N, hN⟩ := h
  exact ⟨N, hN N (le_refl N)⟩

end Settles

/-- Rounds of `body`, `fuel` of them at most. A round goes on with `inl` and leaves with `inr`. -/
def loop (body : α → Option (α ⊕ β)) : Nat → α → Option β
  | 0, _ => none
  | fuel + 1, a =>
    (body a).bind fun
      | .inl a' => loop body fuel a'
      | .inr b => some b

/-- **Total correctness.** Every round from a state in `P` ends, and one that goes on stays in `P` and
makes the measure smaller. -/
theorem settles_loop (body : Nat → α → Option (α ⊕ β)) {P : α → Prop} {Q : β → Prop} (size : α → Nat)
    (round : ∀ a, P a → ∃ x, Settles (fun n => body n a) x ∧
      (∀ a', x = .inl a' → size a' < size a ∧ P a') ∧ ∀ b, x = .inr b → Q b)
    (a : α) (ha : P a) : ∃ b, Settles (fun n => loop (body n) n a) b ∧ Q b := by
  -- the fuel of the rounds and the number of rounds are let grow on their own
  have both : ∀ k a, size a < k → P a →
      ∃ b N, (∀ n, N ≤ n → ∀ m, N ≤ m → loop (body n) m a = some b) ∧ Q b := by
    intro k
    induction k with
    | zero => intro a h; omega
    | succ k ih =>
      intro a hk ha
      obtain ⟨x, ⟨N, hN⟩, hgo, hleave⟩ := round a ha
      match x with
      | .inr b =>
        refine ⟨b, N + 1, fun n hn m hm => ?_, hleave b rfl⟩
        obtain ⟨m, rfl⟩ : ∃ j, m = j + 1 := ⟨m - 1, by omega⟩
        simp only [loop, hN n (by omega), Option.bind_some]
      | .inl a' =>
        obtain ⟨hsize, ha'⟩ := hgo a' rfl
        obtain ⟨b, M, hM, hb⟩ := ih a' (by omega) ha'
        refine ⟨b, max N M + 1, fun n hn m hm => ?_, hb⟩
        obtain ⟨m, rfl⟩ : ∃ j, m = j + 1 := ⟨m - 1, by omega⟩
        simp only [loop, hN n (by omega), Option.bind_some]
        exact hM n (by omega) m (by omega)
  obtain ⟨b, N, hN, hb⟩ := both (size a + 1) a (Nat.lt_succ_self _) ha
  exact ⟨b, ⟨N, fun n hn => hN n hn n hn⟩, hb⟩

/-- **Partial correctness.** What the rounds keep holds of the state the loop leaves from. -/
theorem loop_inv {body : α → Option (α ⊕ β)} {P : α → Prop} {Q : β → Prop}
    (go : ∀ a a', P a → body a = some (.inl a') → P a')
    (leave : ∀ a b, P a → body a = some (.inr b) → Q b) :
    ∀ (fuel : Nat) (a : α) (b : β), P a → loop body fuel a = some b → Q b := by
  intro fuel
  induction fuel with
  | zero => intro a b _ h; exact absurd h (by simp [loop])
  | succ fuel ih =>
    intro a b ha h
    rw [loop, Option.bind_eq_some_iff] at h
    obtain ⟨x, hx, h⟩ := h
    match x with
    | .inl a' => exact ih a' b (go a a' ha hx) h
    | .inr b' =>
      obtain rfl : b' = b := Option.some.inj h
      exact leave a b' ha hx

/-- A loop that has ended on some fuel ends so on more. -/
theorem settles_of_loop {body : α → Option (α ⊕ β)} {fuel : Nat} {a : α} {b : β} (h : loop body fuel a = some b) :
    Settles (fun n => loop body n a) b := by
  refine ⟨fuel, fun n hn => ?_⟩
  change loop body n a = some b
  induction fuel generalizing n a with
  | zero => exact absurd h (by simp [loop])
  | succ fuel ih =>
    obtain ⟨m, rfl⟩ : ∃ m, n = m + 1 := ⟨n - 1, by omega⟩
    rw [loop, Option.bind_eq_some_iff] at h
    obtain ⟨x, hx, h⟩ := h
    rw [loop, hx, Option.bind_some]
    cases x with
    | inl a' => exact ih h m (by omega)
    | inr b' => exact h

/-- What is seen of the end of a loop is made out by what is seen of where it starts, if that is so of a round. -/
theorem loop_congr {δ : Type*} {body : α → Option (α ⊕ β)} {f : α → γ} {g : β → δ}
    (round : ∀ a a', f a = f a' → (body a).map (Sum.map f g) = (body a').map (Sum.map f g)) (fuel : Nat) {a a' : α}
    (h : f a = f a') : (loop body fuel a).map g = (loop body fuel a').map g := by
  induction fuel generalizing a a' with
  | zero => rfl
  | succ fuel ih =>
    have hround := round a a' h
    rw [loop, loop]
    cases hbody : body a with
    | none =>
      rw [hbody, Option.map_none, eq_comm, Option.map_eq_none_iff] at hround
      rw [hround, Option.bind_none]
    | some x =>
      rw [hbody, Option.map_some, eq_comm, Option.map_eq_some_iff] at hround
      obtain ⟨x', hbody', hx⟩ := hround
      rw [hbody', Option.bind_some, Option.bind_some]
      cases x with
      | inl b =>
        obtain ⟨b', rfl, hb⟩ : ∃ b', x' = .inl b' ∧ f b' = f b := by
          cases x' with
          | inl b' => exact ⟨b', rfl, Sum.inl.inj hx⟩
          | inr b' => exact absurd hx nofun
        exact (ih hb).symm
      | inr b =>
        obtain ⟨b', rfl, hb⟩ : ∃ b', x' = .inr b' ∧ g b' = g b := by
          cases x' with
          | inl b' => exact absurd hx nofun
          | inr b' => exact ⟨b', rfl, Sum.inr.inj hx⟩
        exact congrArg some hb.symm

end Bbq.Lib
