import Bbq.Lib.Transducer
import Bbq.Zcow.Node

/-!
# What a parser builds: `zcow::builder`

The C++ builder (`backends/cpp/runtime/CaptureCow.h:1217-1400`): a stack of open scopes, the list
of finished top-level nodes, and the state it keeps beside them, namely the pending variant tag,
the pending count field and the annotations of the wrapper node that `finish` makes.

`stack` holds the innermost scope first (`stack_.back()` is its head); a child list is in document
order, as `push_back` leaves it. `free_` (nodes carried as values) is not part of the tree and is
left out. `Op` is one call of the public interface, `step` performs it.
-/

namespace Bbq.Zcow

open Bbq.Lib

/-- `builder`: its data members. -/
structure Builder where
  /-- `stack_`: the open scopes, innermost first. -/
  stack : List Node
  /-- `roots_`: what has been finished at top level, in document order. -/
  roots : List Node
  pendingVariantTag : Int
  /-- `pending_count_field_`; `none` for the null pointer. -/
  pendingCountField : Option String
  rootDerives : Derives
  rootDetermines : Option String
  rootBits : Bool
  rootBitsMsbFirst : Bool

namespace Builder

/-- A builder as `clear` leaves it. -/
def empty : Builder :=
  { stack := [], roots := [], pendingVariantTag := -1, pendingCountField := none
    rootDerives := .nothing, rootDetermines := none, rootBits := false, rootBitsMsbFirst := false }

/-- `builder::Mark`. -/
structure Mark where
  depth : Nat
  kids : Nat
  deriving DecidableEq, Repr

/-- The child list new nodes go to: the innermost open scope's, else the top level's. -/
def current (b : Builder) : List Node :=
  match b.stack with
  | [] => b.roots
  | n :: _ => n.kids

/-- Replace the child list new nodes go to. -/
def setCurrent (b : Builder) (kids : List Node) : Builder :=
  match b.stack with
  | [] => { b with roots := kids }
  | n :: rest => { b with stack := .mk n.cell kids :: rest }

def mark (b : Builder) : Mark := { depth := b.stack.length, kids := b.current.length }

/-- `stack_.resize(depth)`: the innermost scopes go first. -/
def resize (b : Builder) (depth : Nat) : Builder :=
  if depth < b.stack.length then { b with stack := b.stack.drop (b.stack.length - depth) } else b

def restore (b : Builder) (m : Mark) : Builder :=
  let b := b.resize m.depth
  if m.kids < b.current.length then b.setCurrent (b.current.take m.kids) else b

def attach (b : Builder) (n : Node) : Builder := b.setCurrent (b.current ++ [n])

/-- `open(name, t, pos, tag)`, with the annotation `begin_array` writes on the scope it opened. -/
def openScope (b : Builder) (name : Option String) (t : CaptureType) (pos : Nat) (tag : Int) :
    Builder :=
  let cell : Cell :=
    { (default : Cell) with
      name := name, type := t, startOffset := pos, endOffset := pos, variantTag := tag }
  { b with stack := .mk cell [] :: b.stack }

/-- `close(pos)`: nothing on an empty stack. -/
def closeScope (b : Builder) (pos : Nat) : Builder :=
  match b.stack with
  | [] => b
  | n :: rest =>
    ({ b with stack := rest } : Builder).attach (.mk { n.cell with endOffset := pos } n.kids)

/-- Write on the cell of the innermost open scope, if there is one. -/
def modifyScope (b : Builder) (f : Cell → Cell) : Builder :=
  match b.stack with
  | [] => b
  | n :: rest => { b with stack := .mk (f n.cell) n.kids :: rest }

/-- `take_pending_tag`'s effect; the tag taken is `b.pendingVariantTag`. -/
def clearPendingTag (b : Builder) : Builder := { b with pendingVariantTag := -1 }

def beginStruct (b : Builder) (name : Option String) (pos : Nat) : Builder :=
  b.clearPendingTag.openScope name .struct pos b.pendingVariantTag

def beginArray (b : Builder) (name : Option String) (pos : Nat) : Builder :=
  let opened := b.clearPendingTag.openScope name .array pos b.pendingVariantTag
  match b.pendingCountField with
  | none => opened
  | some path =>
    { opened.modifyScope fun c => { c with derives := .hasCount, determines := some path } with
      pendingCountField := none }

def beginVariant (b : Builder) (name : Option String) (pos : Nat) (tag : Int) : Builder :=
  b.openScope name .struct pos tag

def setPendingVariantTag (b : Builder) (tag : Int) : Builder := { b with pendingVariantTag := tag }

def setPendingCountField (b : Builder) (path : Option String) : Builder :=
  { b with pendingCountField := path }

def setRootDetermines (b : Builder) (d : Derives) (name : Option String) : Builder :=
  { b with rootDerives := d, rootDetermines := name }

def scopeDeterminesRest (b : Builder) (sizeField : Option String) : Builder :=
  match b.stack with
  | [] => b.setRootDetermines .hasRestSize sizeField
  | _ :: _ => b.modifyScope fun c => { c with derives := .hasRestSize, determines := sizeField }

def scopeIsBitsRun (b : Builder) (msbFirst : Bool) : Builder :=
  match b.stack with
  | [] => { b with rootBits := true, rootBitsMsbFirst := msbFirst }
  | _ :: _ => b.modifyScope fun c => { c with bitsContainer := true, bitsMsbFirst := msbFirst }

/-- `add_field`, with the `enc` and `bits` its caller writes on the node it returns
(`Machine.cpp:2018-2019`, `bbq_reader.h:161`). -/
def addField (b : Builder) (name : Option String) (start stop : Nat) (t : CaptureType)
    (v : Option ComputedValue) (enc : Enc) (bits : BitsAt) : Builder :=
  let cell : Cell :=
    { (default : Cell) with
      name := name, type := t, startOffset := start, endOffset := stop, computedValue := v
      variantTag := b.pendingVariantTag, enc := enc, bits := bits }
  b.clearPendingTag.attach (.mk cell [])

/-- The wrapper `finish` makes around the top-level nodes. -/
def rootCell (b : Builder) (bytesConsumed : Nat) : Cell :=
  { (default : Cell) with
    type := .struct, startOffset := 0, endOffset := bytesConsumed
    derives := b.rootDerives, determines := b.rootDetermines
    bitsContainer := b.rootBits, bitsMsbFirst := b.rootBitsMsbFirst }

/-- The document root `finish` hands out; `none` for the null document. -/
def finish (b : Builder) (success : Bool) (bytesConsumed : Nat) : Option Node :=
  if !success || b.roots.isEmpty then none else some (.mk (b.rootCell bytesConsumed) b.roots)

end Builder

/-! ## Calls of the builder's interface -/

/-- One call a parser makes on its builder. -/
inductive Op
  | beginStruct (name : Option String) (pos : Nat)
  | beginArray (name : Option String) (pos : Nat)
  | beginVariant (name : Option String) (pos : Nat) (tag : Int)
  | endStruct (pos : Nat)
  | endArray (pos : Nat)
  | addField (name : Option String) (start stop : Nat) (t : CaptureType)
      (v : Option ComputedValue) (enc : Enc) (bits : BitsAt)
  | setPendingVariantTag (tag : Int)
  | setPendingCountField (path : Option String)
  | rootDetermines (d : Derives) (name : Option String)
  | scopeDeterminesRest (sizeField : Option String)
  | scopeIsBitsRun (msbFirst : Bool)

namespace Builder

def step (b : Builder) : Op → Builder
  | .beginStruct name pos => b.beginStruct name pos
  | .beginArray name pos => b.beginArray name pos
  | .beginVariant name pos tag => b.beginVariant name pos tag
  | .endStruct pos => b.closeScope pos
  | .endArray pos => b.closeScope pos
  | .addField name start stop t v enc bits => b.addField name start stop t v enc bits
  | .setPendingVariantTag tag => b.setPendingVariantTag tag
  | .setPendingCountField path => b.setPendingCountField path
  | .rootDetermines d name => b.setRootDetermines d name
  | .scopeDeterminesRest sizeField => b.scopeDeterminesRest sizeField
  | .scopeIsBitsRun msbFirst => b.scopeIsBitsRun msbFirst

/-- Two builders nobody can tell apart: after any later calls, `finish` hands out the same
tree. -/
def Same (b b' : Builder) : Prop :=
  ∀ success bytesConsumed, Indist step (fun s => s.finish success bytesConsumed) b b'

end Builder

end Bbq.Zcow
