import Bbq.Lib.Transducer
import Bbq.Zcow.Node

/-!
# What the C reader builds: `bbq_capture_builder`

The C backend's index builder (`backends/c/runtime/bbq_lite.c:41-141`): a list of captures, a stack
of open scopes that remember where their first child lies in it, and a child buffer closed scopes
move their children to. `bbq_view_finish` resolves the buffer indices into a tree.

`scopes` holds the innermost scope first; the two vectors are in index order. Allocation is taken
to succeed (`builder_refused` is false throughout): a refused vector fails the whole parse at
`bbq_view_finish`, whatever was built.
-/

namespace Bbq.Lite

open Bbq.Lib

/-- `bbq_field_capture` during the build: `children` is null until `finish`. -/
structure FieldCapture where
  name : Option String
  startOffset : Nat
  endOffset : Nat
  type : CaptureType
  childCount : Int
  /-- Where the children start in the child buffer; `-1` for none. -/
  buildBufIndex : Int
  variantTag : Int
  computedValue : Option ComputedValue
  deriving DecidableEq, Repr

/-- `bbq_capture_scope`. -/
structure Scope where
  name : Option String
  startPos : Nat
  firstChildIndex : Nat
  type : CaptureType
  variantTag : Int
  deriving DecidableEq, Repr

/-- `bbq_capture_builder`. -/
structure Builder where
  fields : List FieldCapture
  /-- The open scopes, innermost first. -/
  scopes : List Scope
  childBuf : List FieldCapture
  pendingVariantTag : Int
  deriving DecidableEq, Repr

/-- `bbq_capture_mark_t`. -/
structure Mark where
  depth : Nat
  childIndex : Nat
  childBufIndex : Nat
  deriving DecidableEq, Repr

namespace Builder

/-- A builder as `bbq_view_ctx_init` leaves it. -/
def init : Builder := { fields := [], scopes := [], childBuf := [], pendingVariantTag := -1 }

def beginScope (b : Builder) (name : Option String) (pos : Nat) (t : CaptureType)
    (variantTag : Int) : Builder :=
  let push (b : Builder) (tag : Int) : Builder :=
    { b with scopes := ⟨name, pos, b.fields.length, t, tag⟩ :: b.scopes }
  if variantTag ≠ -1 then push b variantTag
  else push { b with pendingVariantTag := -1 } b.pendingVariantTag

/-- How many captures a closing scope takes as its children. -/
def childCount (b : Builder) (scope : Scope) : Int := b.fields.length - scope.firstChildIndex

/-- The capture of a closed scope: `fc` in `end_scope`. -/
def scopeCapture (b : Builder) (scope : Scope) (pos : Nat) : FieldCapture :=
  { name := scope.name, startOffset := scope.startPos, endOffset := pos, type := scope.type
    childCount := b.childCount scope
    buildBufIndex := if b.childCount scope > 0 then b.childBuf.length else -1
    variantTag := scope.variantTag, computedValue := none }

def endScope (b : Builder) (pos : Nat) : Builder :=
  match b.scopes with
  | [] => b
  | scope :: rest =>
    { b with
      childBuf :=
        if b.childCount scope > 0 then b.childBuf ++ b.fields.drop scope.firstChildIndex
        else b.childBuf
      fields := b.fields.take scope.firstChildIndex ++ [b.scopeCapture scope pos]
      scopes := rest }

/-- `bbq_cap_add_field`; `add_computed_span` is the case `t = Computed`. -/
def addField (b : Builder) (name : Option String) (start stop : Nat) (t : CaptureType)
    (cv : Option ComputedValue) : Builder :=
  { b with
    fields := b.fields ++ [⟨name, start, stop, t, 0, -1, b.pendingVariantTag, cv⟩]
    pendingVariantTag := -1 }

def setPendingVariantTag (b : Builder) (tag : Int) : Builder := { b with pendingVariantTag := tag }

def mark (b : Builder) : Mark := ⟨b.scopes.length, b.fields.length, b.childBuf.length⟩

/-- `bbq_cap_restore`: three truncations, each shrink-only. -/
def restore (b : Builder) (m : Mark) : Builder :=
  { b with
    scopes := b.scopes.drop (b.scopes.length - m.depth)
    fields := b.fields.take m.childIndex
    childBuf := b.childBuf.take m.childBufIndex }

end Builder

/-- A capture in the finished index. -/
inductive Resolved
  | mk (capture : FieldCapture) (children : List Resolved)

def Resolved.capture : Resolved → FieldCapture
  | mk fc _ => fc

def Resolved.children : Resolved → List Resolved
  | mk _ cs => cs

/-- `copy_to_arena`: each container's children are the `child_count` captures its buffer index
points at. The recursion is as deep as the tree, which `fuel` bounds. -/
def copyToArena (childBuf : List FieldCapture) : Nat → List FieldCapture → List Resolved
  | 0, src => src.map fun fc => .mk fc []
  | fuel + 1, src => src.map fun fc =>
      if (fc.type = .struct ∨ fc.type = .array) ∧ 0 < fc.childCount ∧ 0 ≤ fc.buildBufIndex then
        .mk { fc with buildBufIndex := -1 }
          (copyToArena childBuf fuel
            ((childBuf.drop fc.buildBufIndex.toNat).take fc.childCount.toNat))
      else .mk fc []

namespace Builder

/-- The root `bbq_view_finish` makes; `none` when nothing was captured. A child lies before its
container in the buffer, so the tree is no deeper than the buffer is long. -/
def finish (b : Builder) (pos : Nat) : Option Resolved :=
  if b.fields.isEmpty then none
  else some (.mk
    { name := none, startOffset := 0, endOffset := pos, type := .struct
      childCount := b.fields.length, buildBufIndex := -1, variantTag := -1, computedValue := none }
    (copyToArena b.childBuf b.childBuf.length b.fields))

end Builder

/-- One call a generated C reader makes on its builder. -/
inductive Op
  | beginStruct (name : Option String) (pos : Nat)
  | beginArray (name : Option String) (pos : Nat)
  | beginVariant (name : Option String) (pos : Nat) (tag : Int)
  | endStruct (pos : Nat)
  | endArray (pos : Nat)
  | addField (name : Option String) (start stop : Nat) (t : CaptureType)
      (cv : Option ComputedValue)
  | setPendingVariantTag (tag : Int)

namespace Builder

def step (b : Builder) : Op → Builder
  | .beginStruct name pos => b.beginScope name pos .struct (-1)
  | .beginArray name pos => b.beginScope name pos .array (-1)
  | .beginVariant name pos tag => b.beginScope name pos .struct tag
  | .endStruct pos => b.endScope pos
  | .endArray pos => b.endScope pos
  | .addField name start stop t cv => b.addField name start stop t cv
  | .setPendingVariantTag tag => b.setPendingVariantTag tag

/-- Two builders nobody can tell apart: after any later calls, `finish` hands out the same
index. -/
def Same (b b' : Builder) : Prop := ∀ pos, Indist step (fun s => s.finish pos) b b'

end Builder

end Bbq.Lite
