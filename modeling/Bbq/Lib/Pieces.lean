import Mathlib.Data.List.Basic

/-!
# Text with holes

A text that is written from front to back, with holes whose contents are known later. What a hole
shows until then is its `room`. `shown` is the text as it stands, `offsets` where each open hole
lies in it.

Results:
* `shown_fill`, `offsets_fill`: filling a hole puts its contents where it lies, leaves the holes
  before it and moves those behind it.
* `lt_of_apart`: a hole with text before it lies behind the start.
-/

namespace Bbq.Lib

/-- A stretch of text, or an open hole. -/
inductive Piece (κ α : Type)
  | text (bs : List α)
  | hole (key : κ)
  deriving DecidableEq, Repr

namespace Piece

variable {κ α : Type}

/-- The last open hole `p` accepts: what is before it, its key, and what is behind it. -/
def splitLast (p : κ → Bool) : List (Piece κ α) → Option (List (Piece κ α) × κ × List (Piece κ α))
  | [] => none
  | piece :: ps =>
    match splitLast p ps with
    | some (before, key, after) => some (piece :: before, key, after)
    | none =>
      match piece with
      | text _ => none
      | hole key => if p key = true then some ([], key, ps) else none

section Room

variable (room : κ → List α)

/-- The text as it stands. -/
def shown : List (Piece κ α) → List α
  | [] => []
  | text bs :: ps => bs ++ shown ps
  | hole key :: ps => room key ++ shown ps

/-- The open holes in order, with where each lies when the first piece lies at `n`. -/
def offsets : Nat → List (Piece κ α) → List (κ × Nat)
  | _, [] => []
  | n, text bs :: ps => offsets (n + bs.length) ps
  | n, hole key :: ps => (key, n) :: offsets (n + (room key).length) ps

end Room

/-- Something is shown before the first hole, or there is none. -/
def apart : List (Piece κ α) → Bool
  | [] => true
  | text bs :: ps => !bs.isEmpty || apart ps
  | hole _ :: _ => false

variable {room : κ → List α} {ps before after : List (Piece κ α)} {key : κ} {bs : List α} {n : Nat}

@[simp] theorem shown_append (xs ys : List (Piece κ α)) :
    shown room (xs ++ ys) = shown room xs ++ shown room ys := by
  induction xs with
  | nil => rfl
  | cons x xs ih => cases x <;> simp [shown, ih]

@[simp] theorem offsets_append (n : Nat) (xs ys : List (Piece κ α)) :
    offsets room n (xs ++ ys) = offsets room n xs ++ offsets room (n + (shown room xs).length) ys := by
  induction xs generalizing n with
  | nil => rfl
  | cons x xs ih => cases x <;> simp [offsets, shown, ih, Nat.add_assoc]

theorem offsets_add (n d : Nat) (ps : List (Piece κ α)) :
    offsets room (n + d) ps = (offsets room n ps).map fun x => (x.1, x.2 + d) := by
  induction ps generalizing n with
  | nil => rfl
  | cons x ps ih =>
    cases x with
    | text bs => rw [offsets, offsets, Nat.add_right_comm, ih]
    | hole key => rw [offsets, offsets, Nat.add_right_comm, ih, List.map_cons]

theorem le_of_mem_offsets {x : κ × Nat} (hx : x ∈ offsets room n ps) :
    n ≤ x.2 ∧ x.2 ≤ n + (shown room ps).length := by
  induction ps generalizing n with
  | nil => cases hx
  | cons y ps ih =>
    cases y with
    | text bs =>
      have := ih hx
      rw [shown, List.length_append]
      omega
    | hole key =>
      rw [shown, List.length_append]
      rcases List.mem_cons.1 hx with rfl | hx
      · exact ⟨Nat.le_refl _, Nat.le_add_right _ _⟩
      · have := ih hx
        omega

/-- Text before every hole puts the holes behind the start. -/
theorem lt_of_apart {x : κ × Nat} (h : apart ps = true) (hx : x ∈ offsets room n ps) : n < x.2 := by
  induction ps generalizing n with
  | nil => cases hx
  | cons y ps ih =>
    cases y with
    | text bs =>
      cases bs with
      | nil => exact ih h hx
      | cons b bs =>
        have hx' : x ∈ offsets room (n + (b :: bs).length) ps := hx
        have hle := (le_of_mem_offsets hx').1
        rw [List.length_cons] at hle
        omega
    | hole key => cases h

/-! ## Filling a hole -/

theorem shown_hole : shown room (before ++ hole key :: after) = shown room before ++ room key ++ shown room after := by
  rw [shown_append, shown, List.append_assoc]

theorem shown_fill (bs : List α) :
    shown room (before ++ text bs :: after) = shown room before ++ bs ++ shown room after := by
  rw [shown_append, shown, List.append_assoc]

theorem offsets_hole :
    offsets room 0 (before ++ hole key :: after) =
      offsets room 0 before ++ (key, (shown room before).length) ::
        offsets room ((shown room before).length + (room key).length) after := by
  rw [offsets_append, Nat.zero_add, offsets]

/-- Contents longer than the room move what is behind. -/
theorem offsets_fill (key : κ) (hroom : (room key).length ≤ bs.length) :
    offsets room 0 (before ++ text bs :: after) =
      offsets room 0 before ++ (offsets room ((shown room before).length + (room key).length) after).map
        fun x => (x.1, x.2 + (bs.length - (room key).length)) := by
  rw [offsets_append, Nat.zero_add, offsets, ← offsets_add]
  congr 2
  omega

/-! ## Finding a hole -/

theorem splitLast_eq {p : κ → Bool} (h : splitLast p ps = some (before, key, after)) :
    ps = before ++ hole key :: after ∧ p key = true := by
  induction ps generalizing before with
  | nil => cases h
  | cons y ps ih =>
    unfold splitLast at h
    cases hrest : splitLast p ps with
    | some found =>
      obtain ⟨before', key', after'⟩ := found
      simp only [hrest, Option.some.injEq, Prod.mk.injEq] at h
      obtain ⟨rfl, rfl, rfl⟩ := h
      obtain ⟨rfl, hkey⟩ := ih hrest
      exact ⟨rfl, hkey⟩
    | none =>
      cases y with
      | text bs => simp [hrest] at h
      | hole key' =>
        by_cases hkey : p key' = true
        · simp only [hrest, if_pos hkey, Option.some.injEq, Prod.mk.injEq] at h
          obtain ⟨rfl, rfl, rfl⟩ := h
          exact ⟨rfl, hkey⟩
        · simp [hrest, hkey] at h

end Piece

end Bbq.Lib
