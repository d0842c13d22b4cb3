import Bbq.Zcow.Leaf

/-!
# Serializing a document

The bytes of one version (`backends/cpp/runtime/CaptureCow.h:392-576`): `emit_node` rebuilds them from
the tree, `patch_node` writes the changed leaves over a copy of the input, and `emit_document`
chooses. The emitter also measures: it writes to a `Sink`, which collects or only counts.

The recursion visits a node's children in the order the worklist of the source does. A source without bytes (a null buffer) is `none`.
-/

namespace Bbq.Zcow

/-- `source`: the bytes a document was parsed from. -/
abbrev Source := Option (List UInt8)

/-- The bytes; none for a null buffer. -/
def Source.bytes (s : Source) : List UInt8 := s.getD []

/-- `sink`: where emitted bytes go. -/
structure Sink (σ : Type) where
  raw : σ → List UInt8 → σ
  /-- A fixed-width leaf of the width given. -/
  fixed : σ → Nat → Cell → σ
  uleb : σ → UInt64 → σ
  sleb : σ → Int64 → σ

/-- The bytes of a fixed-width leaf in room for `w`. -/
def fixedLeaf (w : Nat) (c : Cell) : List UInt8 := (encodeLeaf c ++ List.replicate w 0).take w

/-- A sink that collects. -/
def collecting : Sink (List UInt8) where
  raw out bs := out ++ bs
  fixed out w c := out ++ fixedLeaf w c
  uleb out v := out ++ Leb128.Cpp.encodeUleb128 v
  sleb out v := out ++ Leb128.Cpp.encodeSleb128 v

/-- A sink that only counts. -/
def counting : Sink Nat where
  raw n bs := n + bs.length
  fixed n w _ := n + w
  uleb n v := n + (Leb128.Cpp.encodeUleb128 v).length
  sleb n v := n + (Leb128.Cpp.encodeSleb128 v).length

/-- The path of child `i` under `at`, as error messages name it. -/
def pathOf (parent : String) (i : Nat) (name : Option String) : String :=
  match name with
  | some nm =>
    if nm ≠ "" then (if parent = "" then nm else parent ++ "." ++ nm) else parent ++ "[" ++ toString i ++ "]"
  | none => parent ++ "[" ++ toString i ++ "]"

/-- The width `emit_node` gives a fixed-width leaf: its span's, else its type's. -/
def emitWidth (c : Cell) : Nat :=
  if c.startOffset < c.endOffset then c.endOffset - c.startOffset else c.type.leafWidth

mutual

/-- `emit_node`. -/
def emitNode {σ : Type} (k : Sink σ) (src : Source) (path : String) (out : σ) : Node → Except Thrown σ
  | .mk c kids =>
    if c.parsed then
      if src.isSome ∧ c.startOffset < c.endOffset then
        .ok (k.raw out (bytesAt src.bytes c.startOffset (c.endOffset - c.startOffset)))
      else .ok out
    else if c.type = .computed then
      match c.enc with
      | .uleb => .ok (k.uleb out (Int64.ofInt c.ival).toUInt64)
      | .sleb => .ok (k.sleb out (.ofInt c.ival))
      | .fixed => .ok out
    else if c.type.isContainer then
      if c.bval ≠ [] then .ok (k.raw out c.bval) else emitNodes k src path 0 out kids
    else if c.type = .bytes ∨ c.type = .string then .ok (k.raw out c.bval)
    else
      match c.enc with
      | .uleb => .ok (k.uleb out (Int64.ofInt c.ival).toUInt64)
      | .sleb => .ok (k.sleb out (.ofInt c.ival))
      | .fixed =>
        if emitWidth c = 0 then
          .error (.typeError ("zcow emit: '" ++ (if path = "" then "<root>" else path) ++ "' has no width for its type"))
        else .ok (k.fixed out (emitWidth c) c)

/-- A container's children from the `i`-th on. -/
def emitNodes {σ : Type} (k : Sink σ) (src : Source) (path : String) (i : Nat) (out : σ) :
    List Node → Except Thrown σ
  | [] => .ok out
  | n :: ns => do
    let out ← emitNode k src (pathOf path i n.cell.name) out n
    emitNodes k src path (i + 1) out ns

end

/-- `emitted_size`. -/
def emittedSize (src : Source) (n : Node) : Except Thrown Nat := emitNode counting src "" 0 n

mutual

/-- `changes_length`. -/
def changesLength : Node → Bool
  | .mk c kids =>
    if c.parsed then false
    else if c.resized then true
    else
      match kids with
      | [] =>
        if c.type = .computed then c.enc ≠ .fixed
        else if c.endOffset ≤ c.startOffset then true
        else if c.enc ≠ .fixed then true
        else if c.type = .bytes ∨ c.type = .string then c.bval.length ≠ c.endOffset - c.startOffset
        else false
      | n :: ns => changesLength n || anyChangesLength ns

def anyChangesLength : List Node → Bool
  | [] => false
  | n :: ns => changesLength n || anyChangesLength ns

end

/-- `memcpy` to offset `i`; bytes outside the buffer are not modelled. -/
def patchAt (out : List UInt8) (i : Nat) (bs : List UInt8) : List UInt8 :=
  out.take i ++ bs ++ out.drop (i + bs.length)

mutual

/-- `patch_node`. -/
def patchNode (base : Nat) (out : List UInt8) : Node → List UInt8
  | .mk c kids =>
    if c.parsed then out
    else if c.bval ≠ [] ∧ c.startOffset < c.endOffset ∧ c.type.isContainer then
      patchAt out (c.startOffset - base) c.bval
    else
      match kids with
      | [] =>
        if c.type = .computed then out
        else if c.type = .bytes ∨ c.type = .string then patchAt out (c.startOffset - base) c.bval
        else patchAt out (c.startOffset - base) (encodeLeaf c)
      | n :: ns => patchNode base (patchNodes base out ns) n

/-- The last child first: the worklist is a stack. -/
def patchNodes (base : Nat) (out : List UInt8) : List Node → List UInt8
  | [] => out
  | n :: ns => patchNode base (patchNodes base out ns) n

end

/-- `emit_document`: the bytes of one version. -/
def emitDocument (root : Option Node) (src : Source) : Except Thrown (List UInt8) :=
  match root with
  | none => .ok []
  | some n =>
    if !n.cell.parsed ∧ src.isSome ∧ !changesLength n then
      .ok (patchNode n.cell.startOffset (bytesAt src.bytes n.cell.startOffset (n.cell.endOffset - n.cell.startOffset)) n)
    else emitNode collecting src "" [] n

end Bbq.Zcow
