import Mathlib.Algebra.Ring.Int.Defs
import Mathlib.Algebra.Ring.Nat
import Mathlib.Data.Int.Order.Basic

/-!
# The parsed document's node

`bbq::zcow::node` (`backends/cpp/runtime/CaptureCow.h:58-136`), with the two neutral types every
layer shares (`backends/cpp/runtime/Capture.h`): the kind of a captured value and the value a
grammar computed rather than read.

A node is split in two: `Cell` holds the fields of the C++ struct that are not children, `Node`
adds `kids`. Children are shared pointers in the source and values here; sharing is not
observable through the operations modelled. A `const char*` name is an `Option String`
(`none` for the null pointer); a `size_t` offset is a `Nat`; a `double` is its 64 bits.
-/

namespace Bbq

/-- A C `double`, by its bits: what is stored, compared and written back. -/
structure Double where
  bits : UInt64
  deriving DecidableEq, Repr, Inhabited

/-- `CaptureType`: the grammar's primitive kinds, the two containers, and the two kinds of leaf
whose bytes are not re-decoded. -/
inductive CaptureType
  | uInt8 | uInt16LE | uInt16BE | uInt32LE | uInt32BE | uInt64LE | uInt64BE
  | int8 | int16LE | int16BE | int32LE | int32BE | int64LE | int64BE
  | float32LE | float32BE | float64LE | float64BE
  | bool | bytes | string
  | struct | array | computed | external
  deriving DecidableEq, Repr, Inhabited

/-- `ComputedValue`: a small tagged scalar. -/
inductive ComputedValue
  | int (i : Int)
  | float (f : Double)
  | bool (b : Bool)
  | string (s : String)
  deriving DecidableEq, Repr, Inhabited

namespace Zcow

/-- `Enc`: how an owned integer is written. -/
inductive Enc
  | fixed | uleb | sleb
  deriving DecidableEq, Repr, Inhabited

/-- `node::Derives`: what the field named by `determines` is derived from. -/
inductive Derives
  | nothing | hasCount | hasRestSize
  deriving DecidableEq, Repr, Inhabited

/-- `node::bits_at`: an entry of a bit run, `[start, end)` within the run. -/
structure BitsAt where
  start : Nat
  stop : Nat
  isSigned : Bool
  isEntry : Bool
  deriving DecidableEq, Repr, Inhabited

/-- The members of `node` other than its children. -/
structure Cell where
  /-- Interned field name; `none` for an array element. -/
  name : Option String
  type : CaptureType
  /-- Which union or switch arm; `-1` if none. -/
  variantTag : Int
  startOffset : Nat
  endOffset : Nat
  /-- The span still describes this node. -/
  parsed : Bool
  enc : Enc
  ival : Int
  fval : Double
  bval : List UInt8
  computedValue : Option ComputedValue
  derives : Derives
  determines : Option String
  /-- A child was added or dropped. -/
  resized : Bool
  bitsContainer : Bool
  bitsMsbFirst : Bool
  bits : BitsAt
  /-- The transient that owns this node; `0` when a persistent document does. -/
  owner : Nat
  deriving DecidableEq, Repr

/-- `node()`: the default member initialisers. -/
instance : Inhabited Cell where
  default :=
    { name := none, type := .uInt8, variantTag := -1, startOffset := 0, endOffset := 0
      parsed := true, enc := .fixed, ival := 0, fval := ⟨0⟩, bval := [], computedValue := none
      derives := .nothing, determines := none, resized := false
      bitsContainer := false, bitsMsbFirst := false, bits := ⟨0, 0, false, false⟩, owner := 0 }

/-- `node`: a cell and the children under it, in document order. -/
inductive Node
  | mk (cell : Cell) (kids : List Node)

namespace Node

def cell : Node → Cell
  | mk c _ => c

def kids : Node → List Node
  | mk _ ks => ks

@[simp] theorem cell_mk (c : Cell) (ks : List Node) : (mk c ks).cell = c := rfl
@[simp] theorem kids_mk (c : Cell) (ks : List Node) : (mk c ks).kids = ks := rfl

theorem ext_iff {a b : Node} : a = b ↔ a.cell = b.cell ∧ a.kids = b.kids := by
  cases a
  cases b
  simp

/-- `node::container`. -/
def container (n : Node) : Bool := n.cell.type == .struct || n.cell.type == .array

end Node

end Zcow

end Bbq
