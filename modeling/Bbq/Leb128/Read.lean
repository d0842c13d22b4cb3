import Bbq.Bytes
import Bbq.Lib.Leb128
import Mathlib.Data.Nat.Bitwise

/-!
# The varint decoders

The three loops that read a LEB128 integer: the CEK machine's (`decodeUleb128`, `decodeSleb128` in
`Bytes.lean`), the C++ reader's (`backends/cpp/runtime/bbq_reader.h:168-206`) and the C reader's
(`backends/c/runtime/bbq_read.h:427-605`), and what they should read: `decoded`, `decodedSigned`.

* `Cursor` is what a decoder sees of its reader: the input, the cursor and the end of the window.
* A loop counts down the bytes that may still come: `i == maxbytes - 1` is `left = 0`.
* An `int64_t` accumulator is kept by its bits, in a `UInt64`, where shifts are the same.
-/

namespace Bbq.Leb128

open Lib.Leb128

/-! ## What should be read -/

/-- `uleb128` of width `w`: the value and the bytes it takes. -/
def decoded (w : Nat) (bs : List UInt8) : Option (Int × Nat) :=
  (first bs).bind fun g =>
    if g.length ≤ lebMaxBytes w ∧ value g < 2 ^ w then some (value g, g.length) else none

/-- `sleb128` of width `w`. -/
def decodedSigned (w : Nat) (bs : List UInt8) : Option (Int × Nat) :=
  (first bs).bind fun g =>
    if g.length ≤ lebMaxBytes w ∧ -2 ^ (w - 1) ≤ signed g ∧ signed g < 2 ^ (w - 1)
    then some (signed g, g.length) else none

/-! ## Readers -/

/-- A reader at `pos`, in a window that ends at `stop`. -/
structure Cursor where
  data : List UInt8
  pos : Nat
  stop : Nat
  stop_le : stop ≤ data.length

namespace Cursor

/-- What is left of the window. -/
def rest (c : Cursor) : List UInt8 := bytesAt c.data c.pos (c.stop - c.pos)

/-- `data[i]`. -/
def byteAt (c : Cursor) (i : Nat) : UInt8 := c.data.getD i 0

/-- `n` bytes on. -/
def skip (c : Cursor) (n : Nat) : Cursor := { c with pos := c.pos + n }

end Cursor

namespace Cpp

/-- The loop of `uleb_capture`: the value and the cursor after it. -/
def ulebFrom (c : Cursor) (bits : Nat) :
    (left i shift : Nat) → (result : UInt64) → Option (UInt64 × Nat)
  | 0, _, _, _ => none
  | left + 1, i, shift, result =>
    if c.pos + i ≥ c.stop then none
    else
      let byte := c.byteAt (c.pos + i)
      let avail := bits - shift
      if left = 0 ∧ (byte &&& 0x80 ≠ 0 ∨ avail < 7 ∧ byte >>> UInt8.ofNat avail ≠ 0) then none
      else
        let result := result ||| (byte &&& 0x7f).toUInt64 <<< UInt64.ofNat shift
        if byte &&& 0x80 = 0 then some (result, c.pos + i + 1)
        else ulebFrom c bits left (i + 1) (shift + 7) result

/-- `uleb_capture`. -/
def ulebCapture (c : Cursor) (bits : Nat) : Option (UInt64 × Nat) :=
  ulebFrom c bits (lebMaxBytes bits) 0 0 0

/-- The loop of `sleb_capture`: of the last byte it only checks that it ends the encoding. -/
def slebFrom (c : Cursor) (bits : Nat) :
    (left i shift : Nat) → (result : UInt64) → Option (Int64 × Nat)
  | 0, _, _, _ => none
  | left + 1, i, shift, result =>
    if c.pos + i ≥ c.stop then none
    else
      let byte := c.byteAt (c.pos + i)
      if left = 0 ∧ byte &&& 0x80 ≠ 0 then none
      else
        let result := result ||| (byte &&& 0x7f).toUInt64 <<< UInt64.ofNat shift
        let shift := shift + 7
        if byte &&& 0x80 = 0 then
          let result :=
            if shift < bits ∧ byte &&& 0x40 ≠ 0 then result ||| -((1 : UInt64) <<< UInt64.ofNat shift) else result
          some (result.toInt64, c.pos + i + 1)
        else slebFrom c bits left (i + 1) shift result

/-- `sleb_capture`. -/
def slebCapture (c : Cursor) (bits : Nat) : Option (Int64 × Nat) :=
  slebFrom c bits (lebMaxBytes bits) 0 0 0

end Cpp

namespace C

/-- `bbq_read_u8`. -/
def readU8 (c : Cursor) : Option (UInt8 × Cursor) :=
  if c.pos + 1 > c.stop then none else some (c.byteAt c.pos, c.skip 1)

/-- The loop of `bbq_read_uleb128`. -/
def readUlebFrom (bits : Nat) : (left shift : Nat) → UInt64 → Cursor → Option (UInt64 × Cursor)
  | 0, _, _, _ => none
  | left + 1, shift, result, c =>
    match readU8 c with
    | none => none
    | some (byte, c) =>
      let avail := bits - shift
      if left = 0 ∧ (byte &&& 0x80 ≠ 0 ∨ avail < 7 ∧ byte >>> UInt8.ofNat avail ≠ 0) then none
      else
        let result := result ||| (byte &&& 0x7f).toUInt64 <<< UInt64.ofNat shift
        if byte &&& 0x80 = 0 then some (result, c)
        else readUlebFrom bits left (shift + 7) result c

/-- `bbq_read_uleb128`. -/
def readUleb128 (c : Cursor) (bits : Nat) : Option (UInt64 × Cursor) :=
  readUlebFrom bits (lebMaxBytes bits) 0 0 c

/-- The check `bbq_read_sleb128` makes of a last byte: `hi != expect`. -/
def slebOverwide (byte : UInt8) (avail : Nat) : Bool :=
  let lowMask : UInt8 := 0x7f >>> UInt8.ofNat (7 - avail)
  let hi := byte &&& 0x7f &&& ~~~lowMask
  let expect : UInt8 :=
    if byte &&& (1 : UInt8) <<< UInt8.ofNat (avail - 1) ≠ 0 then 0x7f &&& ~~~lowMask else 0
  hi != expect

/-- The loop of `bbq_read_sleb128`. -/
def readSlebFrom (bits : Nat) : (left shift : Nat) → UInt64 → Cursor → Option (Int64 × Cursor)
  | 0, _, _, _ => none
  | left + 1, shift, result, c =>
    match readU8 c with
    | none => none
    | some (byte, c) =>
      if left = 0 ∧ (byte &&& 0x80 ≠ 0 ∨ slebOverwide byte (bits - shift) = true) then none
      else
        let result := result ||| (byte &&& 0x7f).toUInt64 <<< UInt64.ofNat shift
        let shift := shift + 7
        if byte &&& 0x80 = 0 then
          let result :=
            if shift < 64 ∧ byte &&& 0x40 ≠ 0 then result ||| ~~~(0 : UInt64) <<< UInt64.ofNat shift
            else result
          some (result.toInt64, c)
        else readSlebFrom bits left shift result c

/-- `bbq_read_sleb128`. -/
def readSleb128 (c : Cursor) (bits : Nat) : Option (Int64 × Cursor) :=
  readSlebFrom bits (lebMaxBytes bits) 0 0 c

end C

example : Cpp.slebCapture ⟨[0x80, 0x80, 0x80, 0x80, 0x78], 0, 5, by decide⟩ 32 =
    some (32212254720, 5) := by decide

/-! ## Bytes -/

section

variable {c : Cursor} {byte : UInt8} {bits left shift used i n : Nat} {bs : List UInt8}

theorem more_iff : byte &&& 0x80 = 0 ↔ byte.toNat < 128 := by
  rw [← UInt8.toNat_inj, UInt8.toNat_and]
  have h := Nat.and_two_pow byte.toNat 7
  have hlt := byte.toNat_lt
  rw [Nat.testBit_eq_decide_div_mod_eq] at h
  show byte.toNat &&& 2 ^ 7 = 0 ↔ _
  rw [h]
  by_cases hb : byte.toNat < 128
  · simp [hb, Nat.div_eq_of_lt hb]
  · have hdiv : byte.toNat / 2 ^ 7 % 2 = 1 := by omega
    rw [hdiv]
    simp [hb]

theorem sign_iff : byte &&& 0x40 ≠ 0 ↔ byte.toNat.testBit 6 = true := by
  rw [ne_eq, ← UInt8.toNat_inj, UInt8.toNat_and]
  show ¬ (byte.toNat &&& 2 ^ 6 = 0) ↔ _
  rw [Nat.and_two_pow]
  cases byte.toNat.testBit 6 <;> simp

theorem testBit_six (h : n < 128) : n.testBit 6 = true ↔ 64 ≤ n := by
  rw [Nat.testBit_eq_decide_div_mod_eq, decide_eq_true_eq]
  omega

theorem group_eq (b : Nat) : b &&& 0x7f = b % 128 := Nat.and_two_pow_sub_one_eq_mod b 7

theorem or_group {result : Nat} (h : result < 2 ^ shift) (b : Nat) :
    result ||| (b &&& 0x7f) <<< shift = result + 2 ^ shift * (b % 128) := by
  rw [group_eq, Nat.shiftLeft_eq, Nat.mul_comm, Nat.or_comm, ← Nat.two_pow_add_eq_or_of_lt h, Nat.add_comm]

theorem or_group_lt {result : Nat} (h : result < 2 ^ shift) (b : Nat) :
    result + 2 ^ shift * (b % 128) < 2 ^ (shift + 7) := by
  have hb := Nat.mod_lt b (show 0 < 128 by omega)
  have hle : 2 ^ shift * (b % 128 + 1) ≤ 2 ^ shift * 128 := Nat.mul_le_mul_left _ hb
  rw [Nat.pow_add, show (2 : Nat) ^ 7 = 128 from rfl]
  rw [Nat.mul_add, Nat.mul_one] at hle
  omega

/-- The accumulator of the C and C++ loops holds the low 64 bits of the CEK's. -/
theorem toNat_or_group (byte : UInt8) {result : UInt64} {r : Nat} (h : result.toNat = r % 2 ^ 64)
    (hs : shift < 64) :
    (result ||| (byte &&& 0x7f).toUInt64 <<< UInt64.ofNat shift).toNat =
      (r ||| (byte.toNat &&& 0x7f) <<< shift) % 2 ^ 64 := by
  have hshift : shift % 2 ^ 64 % 64 = shift := by omega
  have hshift' : (UInt64.ofNat shift).toNat % 64 = shift := hshift
  rw [UInt64.toNat_or, UInt64.toNat_shiftLeft, h, Nat.or_mod_two_pow, hshift']
  rfl

namespace Cursor

theorem skip_zero (c : Cursor) : c.skip 0 = c := rfl

theorem rest_nil (h : c.pos + i ≥ c.stop) : (c.skip i).rest = [] := by
  have : c.stop - (c.pos + i) = 0 := by omega
  simp [rest, skip, bytesAt, this]

theorem rest_cons (h : c.pos + i < c.stop) :
    (c.skip i).rest = c.byteAt (c.pos + i) :: (c.skip (i + 1)).rest := by
  have hlt : c.pos + i < c.data.length := Nat.lt_of_lt_of_le h c.stop_le
  obtain ⟨k, hk⟩ : ∃ k, c.stop - (c.pos + i) = k + 1 := ⟨c.stop - (c.pos + i) - 1, by omega⟩
  have hk' : c.stop - (c.pos + i + 1) = k := by omega
  simp only [rest, skip, bytesAt, byteAt, hk, ← Nat.add_assoc, hk']
  rw [List.drop_eq_getElem_cons hlt, List.take_succ_cons]
  simp [List.getD, hlt]

end Cursor

theorem readU8_nil (h : c.pos + i ≥ c.stop) : C.readU8 (c.skip i) = none :=
  if_pos (show c.pos + i + 1 > c.stop by omega)

theorem readU8_cons (h : c.pos + i < c.stop) :
    C.readU8 (c.skip i) = some (c.byteAt (c.pos + i), c.skip (i + 1)) :=
  if_neg (show ¬ c.pos + i + 1 > c.stop by omega)

end

end Bbq.Leb128
