import Bbq.Leb128.Agree

/-!
# A 33-bit varint in 32 bits

`bbq_read_sleb128_s33` (`backends/c/runtime/bbq_read.h:620-630`) reads a signed varint of 33 bits and keeps 32 of them.

* `readSleb128_decoded`: the reader it calls, at any width up to 64.
* **`s33_iff`**: what it stores is what is encoded exactly where that is a number of 32 bits. The comment counts on the check of
  the 33-bit range to reject the others, which it does not.
-/

namespace Bbq.Leb128

open Lib.Leb128

namespace C

/-- `bbq_read_sleb128_s33`. -/
def readSleb128S33 (c : Cursor) : Option (Int32 × Cursor) :=
  match readSleb128 c 33 with
  | none => none
  | some (v, c) => some (v.toInt32, c)

end C

section

variable {c : Cursor} {bits : Nat}

theorem ofInt_ranged {v : Int} (hbits : bits ≤ 64) (h : InRange bits v) : (Int64.ofInt v).toInt = v := by
  have hpow : (2 : Int) ^ (bits - 1) ≤ 2 ^ 63 := pow_le_pow_right₀ (by decide) (by omega)
  have hsize : Int64.size = 2 ^ 64 := rfl
  obtain ⟨hlo, hhi⟩ := h
  rw [Int64.toInt_ofInt, hsize]
  exact Int.bmod_eq_of_le (by omega) (by omega)

/-- **The C reader's signed varints**, at any width. -/
theorem readSleb128_decoded (hbits : bits ≤ 64) :
    (C.readSleb128 c bits).map (fun x => (x.1.toInt, x.2.pos - c.pos)) = decodedSigned bits c.rest := by
  rw [map_taken Int64.toInt (C.readSleb128_eq hbits), decodeSleb128_eq, decodedSigned]
  rcases first c.rest with _ | g
  · rfl
  · rw [Option.bind_some, Option.bind_some]
    by_cases h : g.length ≤ lebMaxBytes bits ∧ InRange bits (signed g)
    · rw [if_pos h, if_pos ⟨h.1, h.2.1, h.2.2⟩, Option.map_some]
      simp only [ofInt_ranged hbits h.2]
    · rw [if_neg h, if_neg fun h0 => h ⟨h0.1, h0.2.1, h0.2.2⟩]
      rfl

/-- An encoding of 33 bits is refused or stored with its value: `bbq_read_sleb128_s33` as it should be. -/
def S33Exact (c : Cursor) : Prop :=
  ∀ v c', C.readSleb128S33 c = some (v, c') →
    ∃ x, decodedSigned 33 c.rest = some (x, c'.pos - c.pos) ∧ -2 ^ 32 ≤ x ∧ x < 2 ^ 32 ∧ v.toInt = x

theorem decodedSigned_inRange {x : Int} {n : Nat} {bs : List UInt8} (h : decodedSigned 33 bs = some (x, n)) :
    -2 ^ 32 ≤ x ∧ x < 2 ^ 32 := by
  unfold decodedSigned at h
  obtain ⟨g, -, hg⟩ := Option.bind_eq_some_iff.1 h
  split at hg
  · rename_i hr
    cases hg
    exact hr.2
  · cases hg

theorem toInt_toInt32_iff {v : Int64} (hlo : -2 ^ 32 ≤ v.toInt) (hhi : v.toInt < 2 ^ 32) :
    v.toInt32.toInt = v.toInt ↔ -2 ^ 31 ≤ v.toInt ∧ v.toInt < 2 ^ 31 := by
  rw [Int64.toInt_toInt32]
  constructor
  · intro h
    have hle := Int.le_bmod (x := v.toInt) (m := 2 ^ 32) (by decide)
    have hlt := Int.bmod_lt (x := v.toInt) (m := 2 ^ 32) (by decide)
    rw [h] at hle hlt
    exact ⟨by omega, by omega⟩
  · rintro ⟨h, h'⟩
    exact Int.bmod_eq_of_le (by omega) (by omega)

/-- **`bbq_read_sleb128_s33` is right** where no encoding of 33 bits, of a number that 32 do not hold, comes next. -/
theorem s33_iff (c : Cursor) :
    S33Exact c ↔ ∀ x n, decodedSigned 33 c.rest = some (x, n) → -2 ^ 31 ≤ x ∧ x < 2 ^ 31 := by
  have hread : (C.readSleb128 c 33).map (fun x => (x.1.toInt, x.2.pos - c.pos)) = decodedSigned 33 c.rest :=
    readSleb128_decoded (by decide)
  unfold S33Exact C.readSleb128S33
  rcases hw : C.readSleb128 c 33 with _ | ⟨w, c'⟩
  · rw [hw, Option.map_none] at hread
    rw [← hread]
    exact ⟨fun _ _ _ h => (nomatch h), fun _ _ _ h => (nomatch h)⟩
  · rw [hw, Option.map_some] at hread
    have hrange := decodedSigned_inRange hread.symm
    have hiff := toInt_toInt32_iff hrange.1 hrange.2
    rw [← hread]
    constructor
    · intro h x n hx
      obtain ⟨y, hy, -, -, heq⟩ := h _ _ rfl
      cases hx
      cases hy
      exact hiff.1 heq
    · intro h v c'' hv
      cases hv
      exact ⟨_, rfl, hrange.1, hrange.2, hiff.2 (h _ _ rfl)⟩

end

/-- The encoding of 2 ^ 31. -/
def highIndex : Cursor := ⟨[0x80, 0x80, 0x80, 0x80, 0x08], 0, 5, by decide⟩

/-- **A number of 33 bits that is accepted and stored as another.** -/
theorem s33_wraps :
    decodedSigned 33 highIndex.rest = some (2 ^ 31, 5) ∧
      C.readSleb128S33 highIndex = some (-2147483648, highIndex.skip 5) ∧ ¬ S33Exact highIndex := by
  have hread : C.readSleb128S33 highIndex = some (-2147483648, highIndex.skip 5) := by rfl
  refine ⟨by decide, hread, fun h => ?_⟩
  obtain ⟨x, hx, -, -, heq⟩ := h _ _ hread
  have hdecoded : decodedSigned 33 highIndex.rest = some (2 ^ 31, 5) := by decide
  cases hx.symm.trans hdecoded
  exact absurd heq (by decide)

end Bbq.Leb128
