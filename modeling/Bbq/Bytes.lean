import Bbq.Zcow.Node

/-!
# Bytes to scalars

The byte-level readers every layer shares: fixed-width words in either byte order
(`backends/cpp/runtime/CaptureDecode.h`, `read_primitive` in `backends/cek/Machine.cpp:73-115`),
the two varint decoders (`Machine.cpp:1650-1697`), and the dispatch on a capture's type
(`decode_int_at`, `decode_float_at` in `backends/cpp/runtime/CaptureCow.h:201-231`).
-/

namespace Bbq

/-- The word the bytes hold, least significant byte first. -/
def leNat : List UInt8 → Nat
  | [] => 0
  | b :: bs => b.toNat + 256 * leNat bs

/-- The word the bytes hold, in the byte order asked for. -/
def wordOf (little : Bool) (bs : List UInt8) : Nat := leNat (if little then bs else bs.reverse)

/-- The `n` bytes at `pos`. -/
def bytesAt (input : List UInt8) (pos n : Nat) : List UInt8 := (input.drop pos).take n

theorem length_bytesAt {data : List UInt8} {pos n : Nat} (h : pos + n ≤ data.length) : (bytesAt data pos n).length = n := by
  rw [bytesAt, List.length_take, List.length_drop]
  omega

theorem leNat_concat (bs : List UInt8) (b : UInt8) : leNat (bs ++ [b]) = leNat bs + 256 ^ bs.length * b.toNat := by
  induction bs with
  | nil => simp [leNat]
  | cons a bs ih =>
    rw [List.cons_append, leNat, leNat, ih, List.length_cons, Nat.pow_succ, Nat.mul_add, Nat.add_assoc, Nat.mul_comm _ 256,
      Nat.mul_assoc]

/-- The cast of a word of `n` bytes to the signed type of that width. -/
def signExtend (n : Nat) (w : Nat) : Int := (w : Int).bmod (2 ^ (8 * n))

/-- The cast of a word of `n` bytes to `int64_t` through its own type. -/
def wordToInt64 (signed : Bool) (n : Nat) (w : Nat) : Int64 :=
  .ofInt (if signed then signExtend n w else w)

/-- The `float` or `double` whose bits the word holds, widened to `double`. -/
def wordToDouble (n : Nat) (w : Nat) : Double :=
  if n = 4 then ⟨(Float32.ofBits (.ofNat w)).toFloat.toBits⟩ else ⟨.ofNat w⟩

/-- Byte width and signedness of an integer leaf, and its byte order (`decode_int_at`). -/
def CaptureType.intLayout : CaptureType → Option (Nat × Bool × Bool)
  | .uInt8 => some (1, false, true)
  | .int8 => some (1, true, true)
  | .uInt16LE => some (2, false, true)
  | .uInt16BE => some (2, false, false)
  | .int16LE => some (2, true, true)
  | .int16BE => some (2, true, false)
  | .uInt32LE => some (4, false, true)
  | .uInt32BE => some (4, false, false)
  | .int32LE => some (4, true, true)
  | .int32BE => some (4, true, false)
  | .uInt64LE => some (8, false, true)
  | .uInt64BE => some (8, false, false)
  | .int64LE => some (8, true, true)
  | .int64BE => some (8, true, false)
  | _ => none

/-- Byte width and order of a float leaf (`decode_float_at`). -/
def CaptureType.floatLayout : CaptureType → Option (Nat × Bool)
  | .float32LE => some (4, true)
  | .float32BE => some (4, false)
  | .float64LE => some (8, true)
  | .float64BE => some (8, false)
  | _ => none

/-- `decode_int_at`: the value, and whether it is signed. -/
def decodeIntAt (input : List UInt8) (off : Nat) (t : CaptureType) : Option (Int64 × Bool) :=
  if t = .bool then some (if leNat (bytesAt input off 1) = 0 then 0 else 1, false)
  else
    t.intLayout.map fun (n, signed, little) =>
      (wordToInt64 signed n (wordOf little (bytesAt input off n)), signed)

/-- `decode_float_at`. -/
def decodeFloatAt (input : List UInt8) (off : Nat) (t : CaptureType) : Option Double :=
  t.floatLayout.map fun (n, little) => wordToDouble n (wordOf little (bytesAt input off n))

/-! ## Varints -/

/-- `maxbytes`. -/
def lebMaxBytes (bits : Nat) : Nat := (bits + 6) / 7

/-- `decode_uleb128`'s loop: `left` bytes may still come, `used` have. -/
def ulebFrom (bits : Nat) : (left shift result used : Nat) → List UInt8 → Option (Nat × Nat)
  | 0, _, _, _, _ => none
  | _ + 1, _, _, _, [] => none
  | left + 1, shift, result, used, byte :: rest =>
    let b := byte.toNat
    let avail := bits - shift
    if left = 0 ∧ (128 ≤ b ∨ avail < 7 ∧ b >>> avail ≠ 0) then none
    else
      let result := result ||| (b &&& 0x7f) <<< shift
      if b < 128 then some (result % 2 ^ 64, used + 1)
      else ulebFrom bits left (shift + 7) result (used + 1) rest

/-- `decode_uleb128`: the value and the bytes it took. -/
def decodeUleb128 (bits : Nat) (bs : List UInt8) : Option (Nat × Nat) :=
  ulebFrom bits (lebMaxBytes bits) 0 0 0 bs

/-- The check `decode_sleb128` makes of a last byte: its unused bits repeat the sign. -/
def slebTailOk (avail b : Nat) : Bool :=
  let lowMask := 0x7f >>> (7 - avail)
  let hi := b &&& 0x7f &&& (0x7f ^^^ lowMask)
  let expect := if b.testBit (avail - 1) then 0x7f &&& (0x7f ^^^ lowMask) else 0
  hi == expect

/-- `decode_sleb128`'s loop. -/
def slebFrom (bits : Nat) : (left shift result used : Nat) → List UInt8 → Option (Int64 × Nat)
  | 0, _, _, _, _ => none
  | _ + 1, _, _, _, [] => none
  | left + 1, shift, result, used, byte :: rest =>
    let b := byte.toNat
    if left = 0 ∧ (128 ≤ b ∨ slebTailOk (bits - shift) b = false) then none
    else
      let result := result ||| (b &&& 0x7f) <<< shift
      let shift := shift + 7
      if b < 128 then
        let value : Int := if shift < 64 ∧ b.testBit 6 then (result : Int) - 2 ^ shift else result
        some (.ofInt value, used + 1)
      else slebFrom bits left shift result (used + 1) rest

/-- `decode_sleb128`: the value and the bytes it took. -/
def decodeSleb128 (bits : Nat) (bs : List UInt8) : Option (Int64 × Nat) :=
  slebFrom bits (lebMaxBytes bits) 0 0 0 bs

/-- A varint lies in the bytes it was read from. -/
theorem ulebFrom_used {bits v n : Nat} :
    ∀ {left shift result used : Nat} {bs : List UInt8},
      ulebFrom bits left shift result used bs = some (v, n) → n ≤ used + bs.length
  | 0, _, _, _, _, h => by simp [ulebFrom] at h
  | _ + 1, _, _, _, [], h => by simp [ulebFrom] at h
  | left + 1, shift, result, used, byte :: rest, h => by
    simp only [ulebFrom] at h
    simp only [List.length_cons]
    split at h
    · simp at h
    · split at h
      · simp only [Option.some.injEq, Prod.mk.injEq] at h
        omega
      · have := ulebFrom_used h
        omega

theorem decodeUleb128_used {bits v n : Nat} {bs : List UInt8}
    (h : decodeUleb128 bits bs = some (v, n)) : n ≤ bs.length := by
  have := ulebFrom_used h
  omega

theorem slebFrom_used {bits n : Nat} {v : Int64} :
    ∀ {left shift result used : Nat} {bs : List UInt8},
      slebFrom bits left shift result used bs = some (v, n) → n ≤ used + bs.length
  | 0, _, _, _, _, h => by simp [slebFrom] at h
  | _ + 1, _, _, _, [], h => by simp [slebFrom] at h
  | left + 1, shift, result, used, byte :: rest, h => by
    simp only [slebFrom] at h
    simp only [List.length_cons]
    split at h
    · simp at h
    · split at h
      · simp only [Option.some.injEq, Prod.mk.injEq] at h
        omega
      · have := slebFrom_used h
        omega

theorem decodeSleb128_used {bits n : Nat} {v : Int64} {bs : List UInt8}
    (h : decodeSleb128 bits bs = some (v, n)) : n ≤ bs.length := by
  have := slebFrom_used h
  omega

example : decodeUleb128 32 [0xe5, 0x8e, 0x26] = some (624485, 3) := by decide
example : decodeSleb128 32 [0xc0, 0xbb, 0x78] = some (-123456, 3) := by decide

end Bbq
