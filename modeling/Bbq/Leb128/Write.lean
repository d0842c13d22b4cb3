import Bbq.Leb128.Read

/-!
# The varint encoders

The loops that write a LEB128 integer: the document's (`backends/cpp/runtime/CaptureCow.h:335-349`), the C
writer's (`backends/c/runtime/bbq_runtime.h:344-386`) and the one its size prefixes are made with
(`bbq_uleb128_encode`). Each is shown to produce the minimal encoding (`Lib.Leb128.encode`,
`encodeSigned`).

Bytes pushed are the list returned. A buffer that cannot grow fails the write and is left out.
-/

namespace Bbq.Leb128

open Lib.Leb128

/-! ## The rest of a number -/

theorem shiftRight_seven (v : UInt64) : (v >>> 7).toNat = v.toNat / 128 := by
  rw [UInt64.toNat_shiftRight, Nat.shiftRight_eq_div_pow]
  rfl

/-- Each turn of an unsigned loop drops seven bits. -/
theorem shiftRight_lt {v : UInt64} (h : v >>> 7 ≠ 0) : (v >>> 7).toNat < v.toNat := by
  have hne : (v >>> 7).toNat ≠ 0 := fun h0 => h (UInt64.toNat_inj.1 h0)
  rw [shiftRight_seven] at hne ⊢
  omega

/-- An arithmetic shift, as division rounding down. -/
theorem sar_seven (v : Int64) : (v >>> 7).toInt = v.toInt / 128 := by
  show (BitVec.sshiftRight v.toBitVec 7).toInt = _
  rw [BitVec.toInt_sshiftRight, Int.shiftRight_eq_div_pow]
  rfl

/-- The lowest group of a signed number. -/
def lowGroup (v : Int64) : UInt8 := (v.toUInt64 &&& 0x7f).toUInt8

theorem lowGroup_toNat (v : Int64) : (lowGroup v).toNat = (v.toInt % 128).toNat := by
  have hnat : (lowGroup v).toNat = v.toBitVec.toNat % 128 := by
    rw [lowGroup, UInt64.toNat_toUInt8, UInt64.toNat_and]
    show (v.toBitVec.toNat &&& 2 ^ 7 - 1) % 2 ^ 8 = _
    rw [Nat.and_two_pow_sub_one_eq_mod]
    omega
  have hint : v.toInt = (v.toBitVec.toNat : Int).bmod (2 ^ 64) := BitVec.toInt_eq_toNat_bmod v.toBitVec
  rw [hnat, hint, Int.bmod_def]
  omega

/-- What ends a signed loop: what is left repeats the sign of the byte. -/
def signEnds (left : Int64) (b : UInt8) : Bool := left == 0 && b &&& 0x40 == 0 || left == -1 && b &&& 0x40 != 0

theorem signEnds_iff (v : Int64) : signEnds (v >>> 7) (lowGroup v) = true ↔ -64 ≤ v.toInt ∧ v.toInt < 64 := by
  have hlow := lowGroup_toNat v
  have hbit : (lowGroup v &&& 0x40 ≠ 0) ↔ 64 ≤ (lowGroup v).toNat := by
    rw [sign_iff, testBit_six (by omega)]
  have hzero : (v >>> 7 = 0) ↔ v.toInt / 128 = 0 := by
    rw [← Int64.toInt_inj, sar_seven]
    rfl
  have hneg : (v >>> 7 = -1) ↔ v.toInt / 128 = -1 := by
    rw [← Int64.toInt_inj, sar_seven]
    rfl
  simp only [signEnds, Bool.or_eq_true, Bool.and_eq_true, beq_iff_eq, bne_iff_ne, hbit, hzero, hneg]
  rw [← not_not (a := lowGroup v &&& 0x40 = 0), ← ne_eq, hbit]
  omega

/-- Each turn of a signed loop that goes on brings the number nearer to zero. -/
theorem sar_lt {v : Int64} (h : ¬ signEnds (v >>> 7) (lowGroup v) = true) :
    (v >>> 7).toInt.natAbs < v.toInt.natAbs := by
  rw [signEnds_iff] at h
  rw [sar_seven]
  omega

/-! ## The document's -/

namespace Cpp

/-- `encode_uleb128`. -/
def encodeUleb128 (v : UInt64) : List UInt8 :=
  let b := (v &&& 0x7f).toUInt8
  if v >>> 7 ≠ 0 then (b ||| 0x80) :: encodeUleb128 (v >>> 7) else [b]
termination_by v.toNat
decreasing_by exact shiftRight_lt ‹_›

/-- `encode_sleb128`. -/
def encodeSleb128 (v : Int64) : List UInt8 :=
  let b := lowGroup v
  let done := signEnds (v >>> 7) b
  if done = true then [b] else (b ||| 0x80) :: encodeSleb128 (v >>> 7)
termination_by v.toInt.natAbs
decreasing_by exact sar_lt ‹_›

end Cpp

/-! ## The C writer's -/

namespace C

/-- `bbq_write_uleb128_u64`, and `bbq_uleb128_encode`, which is the same loop on a buffer. -/
def writeUleb128 (val : UInt64) : List UInt8 :=
  let byte := (val &&& 0x7f).toUInt8
  if val >>> 7 ≠ 0 then (byte ||| 0x80) :: writeUleb128 (val >>> 7) else [byte]
termination_by val.toNat
decreasing_by exact shiftRight_lt ‹_›

/-- `bbq_write_sleb128_i64`. -/
def writeSleb128 (val : Int64) : List UInt8 :=
  let byte := lowGroup val
  let val' := val >>> 7
  if signEnds val' byte = true then [byte] else (byte ||| 0x80) :: writeSleb128 val'
termination_by val.toInt.natAbs
decreasing_by exact sar_lt ‹_›

end C

/-! ## What they write -/

theorem continued {b : UInt8} (h : b.toNat < 128) : b ||| 0x80 = (b.toNat + 128).toUInt8 := by
  rw [← UInt8.toNat_inj, UInt8.toNat_or, toNat_toUInt8 (by omega), Nat.or_comm, Nat.add_comm]
  exact (Nat.two_pow_add_eq_or_of_lt (i := 7) h 1).symm

theorem toUInt8_toNat (b : UInt8) : b.toNat.toUInt8 = b := UInt8.ofNat_toNat

theorem and_group (v : UInt64) : ((v &&& 0x7f).toUInt8).toNat = v.toNat % 128 := by
  rw [UInt64.toNat_toUInt8, UInt64.toNat_and]
  show (v.toNat &&& 2 ^ 7 - 1) % 2 ^ 8 = _
  rw [Nat.and_two_pow_sub_one_eq_mod]
  omega

namespace Cpp

theorem encodeUleb128_eq (v : UInt64) : encodeUleb128 v = encode v.toNat := by
  induction v using encodeUleb128.induct with
  | case1 v h ih =>
    have hbig : ¬ v.toNat < 128 := fun h0 => h (UInt64.toNat_inj.1 (by
      rw [shiftRight_seven, Nat.div_eq_of_lt h0]
      rfl))
    rw [encodeUleb128, encode, if_pos h, if_neg hbig, ih, continued (by rw [and_group]; omega), and_group,
      shiftRight_seven]
  | case2 v h =>
    have hsmall : v.toNat < 128 := by
      have h0 := congrArg UInt64.toNat (not_not.1 h)
      rw [shiftRight_seven] at h0
      have : v.toNat / 128 = 0 := h0
      omega
    rw [encodeUleb128, encode, if_neg h, if_pos hsmall, ← toUInt8_toNat (v &&& 0x7f).toUInt8, and_group,
      Nat.mod_eq_of_lt hsmall]

theorem encodeSleb128_eq (v : Int64) : encodeSleb128 v = encodeSigned v.toInt := by
  induction v using encodeSleb128.induct with
  | case1 v _ _ h =>
    rw [encodeSleb128, encodeSigned]
    rw [if_pos h, if_pos ((signEnds_iff v).1 h), ← lowGroup_toNat, toUInt8_toNat]
  | case2 v _ _ h ih =>
    rw [encodeSleb128, encodeSigned]
    have hlow := lowGroup_toNat v
    rw [if_neg h, if_neg fun h0 => h ((signEnds_iff v).2 h0), ih, continued (by omega), hlow, sar_seven]

end Cpp

namespace C

theorem writeUleb128_eq (v : UInt64) : writeUleb128 v = Cpp.encodeUleb128 v := by
  induction v using writeUleb128.induct with
  | case1 v h ih => rw [writeUleb128, Cpp.encodeUleb128, if_pos h, if_pos h, ih]
  | case2 v h => rw [writeUleb128, Cpp.encodeUleb128, if_neg h, if_neg h]

theorem writeSleb128_eq (v : Int64) : writeSleb128 v = Cpp.encodeSleb128 v := by
  induction v using writeSleb128.induct with
  | case1 v _ _ h =>
    rw [writeSleb128, Cpp.encodeSleb128]
    rw [if_pos h, if_pos h]
  | case2 v _ _ h ih =>
    rw [writeSleb128, Cpp.encodeSleb128]
    rw [if_neg h, if_neg h, ih]

end C

end Bbq.Leb128
