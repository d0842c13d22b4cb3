import Mathlib.Data.Nat.Digits.Defs
import Mathlib.Tactic.Ring
import Mathlib.Tactic.Linarith

/-!
# LEB128

A number as bytes of seven bits each, lowest first, every byte but the last with its high bit set.

* `first bs` is the encoding a string starts with; it is there or not whatever number it is of.
* `value` and `signed` are the numbers an encoding stands for, the latter by two's complement of all its
  bits. Neither is bounded, and an encoding need not be minimal.
* `encode` and `encodeSigned` are the minimal encodings.

Results:
* `first_append`: what follows an encoding does not matter.
* `first_encode`, `value_encode`, `encode_length`, and the same for `encodeSigned`: the number comes back, from
  no more bytes than its bits need.
-/

namespace Bbq.Lib.Leb128

/-- The encoding a string starts with: up to the first byte that does not continue. -/
def first : List UInt8 → Option (List UInt8)
  | [] => none
  | b :: bs => if b.toNat < 128 then some [b] else (first bs).map (b :: ·)

/-- The number its groups of seven bits make. -/
def value (g : List UInt8) : Nat := Nat.ofDigits 128 (g.map fun b => b.toNat % 128)

/-- The number they make in two's complement. -/
def signed (g : List UInt8) : Int := (value g : Int).bmod (128 ^ g.length)

/-- The minimal encoding. -/
def encode (n : Nat) : List UInt8 :=
  if n < 128 then [n.toUInt8] else (n % 128 + 128).toUInt8 :: encode (n / 128)
termination_by n
decreasing_by omega

/-- The minimal encoding in two's complement. -/
def encodeSigned (v : Int) : List UInt8 :=
  if -64 ≤ v ∧ v < 64 then [(v % 128).toNat.toUInt8]
  else ((v % 128).toNat + 128).toUInt8 :: encodeSigned (v / 128)
termination_by v.natAbs
decreasing_by omega

section

variable {b : UInt8} {bs g : List UInt8} {n k : Nat} {v : Int}

/-! ## Encodings -/

theorem first_cons_last (h : b.toNat < 128) : first (b :: bs) = some [b] := by simp [first, h]

theorem first_cons_more (h : 128 ≤ b.toNat) : first (b :: bs) = (first bs).map (b :: ·) := by
  simp [first, show ¬ b.toNat < 128 by omega]

theorem first_ne_nil (h : first bs = some g) : g ≠ [] := by
  cases bs with
  | nil => cases h
  | cons b bs =>
    by_cases hb : b.toNat < 128
    · rw [first_cons_last hb] at h
      cases h
      simp
    · rw [first_cons_more (by omega)] at h
      obtain ⟨g', -, rfl⟩ := Option.map_eq_some_iff.1 h
      simp

theorem first_append (h : first bs = some g) (rest : List UInt8) : first (bs ++ rest) = some g := by
  induction bs generalizing g with
  | nil => cases h
  | cons b bs ih =>
    by_cases hb : b.toNat < 128
    · rw [first_cons_last hb] at h
      rw [List.cons_append, first_cons_last hb, h]
    · rw [first_cons_more (by omega)] at h
      obtain ⟨g', hg, rfl⟩ := Option.map_eq_some_iff.1 h
      rw [List.cons_append, first_cons_more (by omega), ih hg]
      rfl

/-! ## Numbers -/

@[simp] theorem value_nil : value [] = 0 := rfl

theorem value_cons : value (b :: g) = b.toNat % 128 + 128 * value g := by
  simp [value, Nat.ofDigits_cons]

theorem value_lt (g : List UInt8) : value g < 128 ^ g.length := by
  induction g with
  | nil => simp
  | cons b g ih =>
    rw [value_cons, List.length_cons, Nat.pow_succ]
    have := Nat.mod_lt b.toNat (show 0 < 128 by omega)
    omega

/-- The number an encoding of two's complement stands for, one group at a time. -/
theorem signed_cons (hg : g ≠ []) : signed (b :: g) = (b.toNat % 128 : Nat) + 128 * signed g := by
  obtain ⟨m, hm⟩ : ∃ m, g.length = m + 1 := ⟨g.length - 1, by
    have := List.length_pos_iff.2 hg
    omega⟩
  have hlt := value_lt g
  have hb := Nat.mod_lt b.toNat (show 0 < 128 by omega)
  have hpow : (128 : Nat) ^ (m + 2) = 128 * 128 ^ (m + 1) := by rw [Nat.pow_succ]; ring
  have hpos : 0 < 128 ^ m := Nat.pow_pos (by omega)
  have hpow' : (128 : Nat) ^ (m + 1) = 128 * 128 ^ m := by rw [Nat.pow_succ]; ring
  unfold signed
  rw [value_cons, List.length_cons, hm, show m + 1 + 1 = m + 2 from rfl, hpow]
  rw [hm] at hlt
  generalize 128 ^ (m + 1) = M at *
  generalize value g = x at *
  generalize b.toNat % 128 = r at *
  rw [Int.bmod_def, Int.bmod_def, Int.emod_eq_of_lt (by omega) (by omega),
    Int.emod_eq_of_lt (by omega) (by omega)]
  split <;> split <;> omega

theorem signed_single : signed [b] = (b.toNat : Int).bmod 128 := by
  simp only [signed, value_cons, value_nil, List.length_singleton]
  rw [Int.bmod_def, Int.bmod_def]
  omega

/-- The last group of an encoding, in its value. -/
theorem value_concat (g : List UInt8) (b : UInt8) :
    value (g ++ [b]) = value g + 128 ^ g.length * (b.toNat % 128) := by
  induction g with
  | nil => simp [value_cons]
  | cons a g ih =>
    rw [List.cons_append, value_cons, value_cons, ih, List.length_cons, Nat.pow_succ]
    ring

theorem last_lt (h : first bs = some (g ++ [b])) : b.toNat < 128 := by
  induction bs generalizing g with
  | nil => cases h
  | cons a bs ih =>
    by_cases ha : a.toNat < 128
    · rw [first_cons_last ha, Option.some.injEq] at h
      rcases g with _ | ⟨x, g⟩
      · cases h
        exact ha
      · simp at h
    · rw [first_cons_more (by omega)] at h
      obtain ⟨g', hg, hcons⟩ := Option.map_eq_some_iff.1 h
      rcases g with _ | ⟨x, g⟩
      · cases hcons
        exact absurd rfl (first_ne_nil hg)
      · cases hcons
        exact ih hg

/-- A number of `n` groups in two's complement lies around zero. -/
theorem signed_bounds (g : List UInt8) : -128 ^ g.length ≤ 2 * signed g ∧ 2 * signed g < 128 ^ g.length := by
  have hpos : 0 < 128 ^ g.length := Nat.pow_pos (by omega)
  have hlo := Int.le_bmod (x := (value g : Int)) hpos
  have hhi := Int.bmod_lt (x := (value g : Int)) hpos
  have hcast : (128 : Int) ^ g.length = ((128 ^ g.length : Nat) : Int) := by push_cast; rfl
  rw [signed, hcast]
  have heven : g = [] ∨ 128 ^ g.length % 2 = 0 := by
    rcases g with _ | ⟨b, g⟩
    · exact .inl rfl
    · right
      rw [List.length_cons, Nat.pow_succ]
      omega
  rcases heven with rfl | heven
  · simp [value]
  · generalize 128 ^ g.length = M at *
    omega

/-! ## Unsigned encodings -/

theorem toNat_toUInt8 (h : n < 256) : n.toUInt8.toNat = n := by
  simp [Nat.mod_eq_of_lt h]

theorem first_encode (n : Nat) : first (encode n) = some (encode n) := by
  induction n using encode.induct with
  | case1 n h =>
    rw [encode, if_pos h]
    exact first_cons_last (by rw [toNat_toUInt8 (by omega)]; exact h)
  | case2 n h ih =>
    rw [encode, if_neg h, first_cons_more (by rw [toNat_toUInt8 (by omega)]; omega), ih]
    rfl

theorem value_encode (n : Nat) : value (encode n) = n := by
  induction n using encode.induct with
  | case1 n h =>
    rw [encode, if_pos h, value_cons, toNat_toUInt8 (by omega), value_nil]
    omega
  | case2 n h ih =>
    rw [encode, if_neg h, value_cons, toNat_toUInt8 (by omega), ih]
    omega

theorem encode_length (h : n < 128 ^ k) (hk : 0 < k) : (encode n).length ≤ k := by
  induction k generalizing n with
  | zero => omega
  | succ k ih =>
    rw [encode]
    split
    · simp
    · rename_i hn
      have hk' : 0 < k := by
        rcases k with _ | k
        · rw [Nat.zero_add, Nat.pow_one] at h
          omega
        · omega
      rw [Nat.pow_succ] at h
      have := ih (n := n / 128) (by omega) hk'
      rw [List.length_cons]
      omega

/-! ## Signed encodings -/

theorem encodeSigned_ne_nil (v : Int) : encodeSigned v ≠ [] := by
  unfold encodeSigned
  split <;> simp

theorem first_encodeSigned (v : Int) : first (encodeSigned v) = some (encodeSigned v) := by
  induction v using encodeSigned.induct with
  | case1 v h =>
    rw [encodeSigned, if_pos h]
    refine first_cons_last ?_
    rw [toNat_toUInt8 (by omega)]
    omega
  | case2 v h ih =>
    rw [encodeSigned, if_neg h, first_cons_more (by rw [toNat_toUInt8 (by omega)]; omega), ih]
    rfl

theorem signed_encodeSigned (v : Int) : signed (encodeSigned v) = v := by
  induction v using encodeSigned.induct with
  | case1 v h =>
    rw [encodeSigned, if_pos h, signed_single, toNat_toUInt8 (by omega), Int.bmod_def]
    omega
  | case2 v h ih =>
    rw [encodeSigned, if_neg h, signed_cons (encodeSigned_ne_nil _), toNat_toUInt8 (by omega), ih]
    omega

theorem encodeSigned_length (hlo : -(64 * 128 ^ k : Nat) ≤ v) (hhi : v < (64 * 128 ^ k : Nat)) :
    (encodeSigned v).length ≤ k + 1 := by
  induction k generalizing v with
  | zero =>
    rw [encodeSigned, if_pos (by simpa using And.intro hlo hhi)]
    simp
  | succ k ih =>
    rw [encodeSigned]
    split
    · simp
    · rw [Nat.pow_succ] at hlo hhi
      have := ih (v := v / 128) (by omega) (by omega)
      rw [List.length_cons]
      omega

end

end Bbq.Lib.Leb128
