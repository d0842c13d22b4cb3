import Bbq.Bytes
import Bbq.Leb128.Write
import Bbq.Zcow.Node

/-!
# Leaves of a document

What a leaf holds and how it is written: the widths and ranges of the leaf types, the value a parsed
leaf's span decodes to and the setters (`backends/cpp/runtime/CaptureCow.h:235-331, 368-390,
1064-1104`), and the encoders of a fixed-width leaf (`backends/cpp/runtime/CaptureDecode.cpp`).

A leaf stores an `int64_t` bit pattern as the number it is. A `double` is compared and narrowed as
Lean's `Float` does it.
-/

namespace Bbq

/-- `is_float_type`. -/
def CaptureType.isFloat (t : CaptureType) : Bool := t.floatLayout.isSome

/-- `(int64_t)d`. -/
def Double.toInt64 (d : Double) : Int := (Float.ofBits d.bits).toInt64.toInt

/-- `a == b`. -/
def Double.same (a b : Double) : Bool := Float.ofBits a.bits == Float.ofBits b.bits

/-- `is_container_type`. -/
def CaptureType.isContainer (t : CaptureType) : Bool := t == .struct || t == .array

/-- `leaf_width`: 0 for a type without a fixed width. -/
def CaptureType.leafWidth (t : CaptureType) : Nat :=
  if t = .bool then 1
  else
    match t.intLayout, t.floatLayout with
    | some (n, _), _ => n
    | none, some (n, _) => n
    | none, none => 0

/-- `is_signed_int_type`. -/
def CaptureType.isSignedInt (t : CaptureType) : Bool :=
  match t.intLayout with
  | some (_, signed, _) => signed
  | none => false

namespace Zcow

/-- What an operation on a document may throw. -/
inductive Thrown
  | typeError (message : String)
  | rangeError (message : String)
  | invalidated (message : String)
  deriving DecidableEq, Repr

/-! ## What a leaf can hold -/

/-- `leaf_holds_signed`. -/
def leafHoldsSigned (t : CaptureType) (e : Enc) (v : Int64) : Bool :=
  match e with
  | .sleb => true
  | .uleb => 0 ≤ v.toInt
  | .fixed =>
    if t = .computed ∨ t = .bool then true
    else
      let w := t.leafWidth
      if w = 0 then true
      else if t.isSignedInt then
        if w ≥ 8 then true
        else
          let hi : Int := 2 ^ (w * 8 - 1) - 1
          decide (-hi - 1 ≤ v.toInt ∧ v.toInt ≤ hi)
      else if v.toInt < 0 then false
      else if w ≥ 8 then true
      else v.toInt ≤ 2 ^ (w * 8) - 1

/-- `leaf_holds_unsigned`. -/
def leafHoldsUnsigned (t : CaptureType) (e : Enc) (v : UInt64) : Bool :=
  match e with
  | .uleb => true
  | .sleb => v.toNat ≤ 2 ^ 63 - 1
  | .fixed =>
    if t = .computed ∨ t = .bool then true
    else
      let w := t.leafWidth
      if w = 0 then true
      else if t.isSignedInt then
        if w ≥ 8 then v.toNat ≤ 2 ^ 63 - 1 else v.toNat ≤ 2 ^ (w * 8 - 1) - 1
      else if w ≥ 8 then true
      else v.toNat ≤ 2 ^ (w * 8) - 1

/-- `leaf_kind_text`. -/
def leafKindText (t : CaptureType) (e : Enc) : String :=
  match e with
  | .uleb => "uleb128"
  | .sleb => "sleb128"
  | .fixed =>
    if t.leafWidth = 0 then "integer"
    else (if t.isSignedInt then "int" else "uint") ++ toString (t.leafWidth * 8)

/-- `leaf_range_text`. -/
def leafRangeText (t : CaptureType) (e : Enc) : String :=
  match e with
  | .uleb => "0 .. 18446744073709551615"
  | .sleb => "-9223372036854775808 .. 9223372036854775807"
  | .fixed =>
    let w := t.leafWidth
    if w = 0 ∨ t = .computed ∨ t = .bool then "any"
    else if t.isSignedInt then
      if w ≥ 8 then "-9223372036854775808 .. 9223372036854775807"
      else
        let hi : Int := 2 ^ (w * 8 - 1) - 1
        toString (-hi - 1) ++ " .. " ++ toString hi
    else if w ≥ 8 then "0 .. 18446744073709551615"
    else "0 .. " ++ toString (2 ^ (w * 8) - 1)

/-! ## The value of a span -/

/-- `decode_int`, of a leaf's span. -/
def decodeInt (c : Cell) (src : List UInt8) : Option (Int64 × Bool) := decodeIntAt src c.startOffset c.type

/-- `decode_float`, of a leaf's span. -/
def decodeFloat (c : Cell) (src : List UInt8) : Option Double := decodeFloatAt src c.startOffset c.type

/-- `computed_int`. -/
def computedInt (c : Cell) : Option Int :=
  if !c.parsed then some c.ival
  else
    match c.computedValue with
    | none => some c.ival
    | some (.int i) => some i
    | some (.float f) => some f.toInt64
    | some (.bool b) => some (if b then 1 else 0)
    | some (.string _) => none

/-! ## Writing a leaf -/

/-- `set_int`. -/
def setInt (c : Cell) (v : Int64) (e : Enc) : Except Thrown Cell :=
  if c.type.isFloat then .error (.typeError "integer assigned to a float field")
  else if !leafHoldsSigned c.type e v then
    .error (.rangeError (toString v.toInt ++ " does not fit a " ++ leafKindText c.type e ++ " field (" ++
      leafRangeText c.type e ++ ")"))
  else .ok { c with parsed := false, ival := v.toInt, enc := e, bval := [] }

/-- `set_uint`. -/
def setUint (c : Cell) (v : UInt64) (e : Enc) : Except Thrown Cell :=
  if c.type.isFloat then .error (.typeError "integer assigned to a float field")
  else if !leafHoldsUnsigned c.type e v then
    .error (.rangeError (toString v.toNat ++ " does not fit a " ++ leafKindText c.type e ++ " field (" ++
      leafRangeText c.type e ++ ")"))
  else .ok { c with parsed := false, ival := v.toInt64.toInt, enc := e, bval := [] }

/-- `set_float`. -/
def setFloat (c : Cell) (v : Double) : Except Thrown Cell :=
  if !c.type.isFloat then .error (.typeError "float assigned to a non-float field")
  else .ok { c with parsed := false, fval := v, bval := [] }

/-- `set_bytes`, and `set_str` with a string's bytes. -/
def setBytes (c : Cell) (b : List UInt8) : Cell := { c with parsed := false, bval := b }

/-! ## Encoding a leaf -/

/-- The `n` bytes of a word in either order: `bbq_wr_*`. -/
def wordToBytes (n : Nat) (little : Bool) (w : Nat) : List UInt8 :=
  let le := (List.range n).map fun i => UInt8.ofNat (w / 256 ^ i)
  if little then le else le.reverse

/-- `encode_int`: nothing for a type that is not a fixed-width integer. -/
def encodeInt (t : CaptureType) (v : Int) : List UInt8 :=
  if t = .bool then [if v ≠ 0 then 1 else 0]
  else
    match t.intLayout with
    | some (n, _, little) => wordToBytes n little (v % 2 ^ (8 * n)).toNat
    | none => []

/-- `encode_float`. -/
def encodeFloat (t : CaptureType) (d : Double) : List UInt8 :=
  match t.floatLayout with
  | some (n, little) =>
    wordToBytes n little (if n = 4 then (Float.ofBits d.bits).toFloat32.toBits.toNat else d.bits.toNat)
  | none => []

/-- A fixed-width leaf's bytes. -/
def encodeLeaf (c : Cell) : List UInt8 :=
  if c.type.isFloat then encodeFloat c.type c.fval else encodeInt c.type c.ival

end Zcow

end Bbq
