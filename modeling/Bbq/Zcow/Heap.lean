import Bbq.Zcow.Bits
import Bbq.Zcow.Emit

/-!
# Versions of a document

Documents and transients share nodes (`backends/cpp/runtime/CaptureCow.h:580-983`). Here a node has an
address and its children are addresses; a node is never freed. A transient writes to a node it owns
in place and clones any other.

* A pointer is an address; one outside the heap stands for the null pointer.
* `next_owner_id` never repeats. The thread check is the source's proxy for single use, which holds
  here: operations come one after the other.
* The loop of `reconcile`, which `serialize` and `commit` settle derived fields with, is run for as
  many turns as `fuel` says.
-/

namespace Bbq.Zcow

/-- `node`, on the heap. -/
structure HeapNode where
  cell : Cell
  kids : List Nat
  deriving DecidableEq, Repr

abbrev Heap := List HeapNode

namespace Heap

/-- The tree under an address, if `fuel` levels hold it. -/
def unfold (h : Heap) : Nat → Nat → Option Node
  | 0, _ => none
  | fuel + 1, a =>
    match h[a]? with
    | none => none
    | some n => (n.kids.mapM (unfold h fuel)).map (.mk n.cell)

/-- `emitted_size`, of the tree under an address. A subtree that contains itself has none: the walk does not
end. -/
def size (h : Heap) (src : Source) (a : Nat) : Option (Except Thrown Nat) :=
  (h.unfold (h.length + 1) a).map (emittedSize src)

/-- Write on a node's own cell. -/
def modifyCell (h : Heap) (a : Nat) (f : Cell → Cell) : Heap := h.modify a fun n => { n with cell := f n.cell }

/-- Write on a node's child vector. -/
def modifyKids (h : Heap) (a : Nat) (f : List Nat → List Nat) : Heap := h.modify a fun n => { n with kids := f n.kids }

/-- `own`, on the node a slot points to: what the slot points to afterwards. -/
def own (h : Heap) (id a : Nat) : Heap × Nat :=
  match h[a]? with
  | none => (h, a)
  | some n =>
    if n.cell.owner = id then (h, a) else (h ++ [{ n with cell := { n.cell with owner := id } }], h.length)

/-- `own(parent->kids[i])`. -/
def ownKid (h : Heap) (id parent i : Nat) : Option (Heap × Nat) :=
  match h[parent]? with
  | none => none
  | some p =>
    match p.kids[i]? with
    | none => none
    | some a => some ((h.own id a).1.modifyKids parent fun ks => ks.set i (h.own id a).2, (h.own id a).2)

/-- `own`, and a write on the cell owned. -/
def writeKid (h : Heap) (id parent i : Nat) (f : Cell → Cell) : Heap :=
  match h.ownKid id parent i with
  | none => h
  | some (h', c) => h'.modifyCell c f

def cell (h : Heap) (a : Nat) : Option Cell := (h[a]?).map HeapNode.cell

/-- The first child with this name. -/
def kidNamed (h : Heap) (a : Nat) (name : String) : Option Nat :=
  match h[a]? with
  | none => none
  | some n => n.kids.findIdx? fun k => ((h.cell k).bind Cell.name) == some name

/-! ## Settling derived fields -/

/-- The slot the first segment of a path names, in the innermost scope that has one. -/
def findSlot (h : Heap) (scope : List Nat) (name : String) : Option (Nat × Nat) :=
  scope.findSome? fun holder => (h.kidNamed holder name).map (holder, ·)

/-- `resolve`, on the segments of the path: the slot, and the containers stepped through, each owned. -/
def resolve (h : Heap) (id : Nat) (scope : List Nat) : List String → Heap × Option (Nat × Nat) × List Nat
  | [] => (h, none, [])
  | [name] => (h, if name = "" then none else h.findSlot scope name, [])
  | head :: rest =>
    match h.findSlot scope head with
    | none => (h, none, [])
    | some (holder, i) =>
      match h.ownKid id holder i with
      | none => (h, none, [])
      | some (h, inner) =>
        let (h, slot, chain) := h.resolve id [inner] rest
        (h, slot, inner :: chain)

/-- What `set_derived` compares with. -/
def derivedNow (c : Cell) (src : Source) (want : Int) : Int :=
  if c.type = .computed then (computedInt c).getD (want + 1)
  else if c.parsed then ((decodeInt c src.bytes).map fun v => v.1.toInt).getD (want + 1)
  else c.ival

/-- `set_derived`, on a slot: whether it wrote. -/
def setDerived (h : Heap) (id : Nat) (src : Source) (slot : Nat × Nat) (want : Int) : Heap × Bool :=
  match ((h[slot.1]?).bind fun p => p.kids[slot.2]?).bind h.cell with
  | none => (h, false)
  | some c =>
    if derivedNow c src want = want then (h, false)
    else (h.writeKid id slot.1 slot.2 fun c => { c with parsed := false, ival := want, bval := [] }, true)

/-- `restore_if_unchanged`: does the leaf hold what its span says. -/
def unchanged (n : HeapNode) (src : Source) : Bool :=
  let c := n.cell
  if c.parsed ∨ n.kids ≠ [] then false
  else if c.endOffset ≤ c.startOffset ∨ src.isNone then false
  else if c.type = .computed then computedInt { c with parsed := true } == some c.ival
  else if c.type = .bytes ∨ c.type = .string then
    let w := c.endOffset - c.startOffset
    decide (c.bval.length = w ∧ c.bval = bytesAt src.bytes c.startOffset w)
  else if c.enc ≠ .fixed then false
  else if c.type.isFloat then (decodeFloat c src.bytes).any fun d => d.same c.fval
  else (decodeInt c src.bytes).any fun v => v.1.toInt == c.ival

/-- `restore_if_unchanged`, on a slot. -/
def restoreIfUnchanged (h : Heap) (id : Nat) (src : Source) (parent i : Nat) : Heap :=
  match ((h[parent]?).bind fun p => p.kids[i]?).bind fun a => h[a]? with
  | none => h
  | some n =>
    if unchanged n src = true then
      h.writeKid id parent i fun c =>
        if c.type = .bytes ∨ c.type = .string then { c with parsed := true, bval := [] } else { c with parsed := true }
    else h

/-- How a walk over the tree ends. -/
inductive Ending
  | done
  | threw (e : Thrown)
  /-- Not within the turns given, or not at all. -/
  | unfinished
  deriving DecidableEq, Repr

/-- The bytes the subtrees occupy, one after the other. -/
def window (h : Heap) (src : Source) : List Nat → Option (Except Thrown Nat)
  | [] => some (.ok 0)
  | a :: as =>
    match h.size src a with
    | none => none
    | some (.error e) => some (.error e)
    | some (.ok n) => (h.window src as).map fun r => r.map (n + ·)

/-- `settle_derived`: what a container owes once its children are settled. -/
def settleDerived (h : Heap) (id : Nat) (src : Source) (n : Nat) (scope : List Nat) : Heap × Ending :=
  match h[n]? with
  | none => (h, .done)
  | some node =>
    match node.cell.derives with
    | .nothing => (h, .done)
    | .hasCount =>
      let (h, slot, chain) := h.resolve id scope ((node.cell.determines.getD "").splitOn ".")
      match slot with
      | none => (h, .done)
      | some slot =>
        let (h, wrote) := h.setDerived id src slot node.kids.length
        (if wrote then chain.foldl (fun h a => h.modifyCell a fun c => { c with parsed := false }) h else h, .done)
    | .hasRestSize =>
      match node.cell.determines.bind (h.kidNamed n) with
      | none => (h, .done)
      | some i =>
        match h.window src (node.kids.drop (i + 1)) with
        | none => (h, .unfinished)
        | some (.error e) => (h, .threw e)
        | some (.ok w) => ((h.setDerived id src (n, i) w).1, .done)

/-- A frame of `reconcile`'s work stack: a container entered, and its next child. -/
structure Frame where
  node : Nat
  kid : Nat
  deriving DecidableEq, Repr

/-- One turn of `reconcile`'s loop; the scope is the containers on the stack, innermost first. -/
def turn (h : Heap) (id : Nat) (src : Source) (frame : Frame) (rest : List Frame) : Heap × List Frame × Ending :=
  match (h[frame.node]?).bind fun n => n.kids[frame.kid]? with
  | none =>
    let (h, ending) := h.settleDerived id src frame.node (frame.node :: rest.map Frame.node)
    (h, rest, ending)
  | some a =>
    let next : Frame := { frame with kid := frame.kid + 1 }
    match h.cell a with
    | none => (h, next :: rest, .done)
    | some c =>
      if c.parsed then (h, next :: rest, .done)
      else if c.type.isContainer then
        match h.ownKid id frame.node frame.kid with
        | none => (h, next :: rest, .done)
        | some (h, k) => (h, ⟨k, 0⟩ :: next :: rest, .done)
      else (h.restoreIfUnchanged id src frame.node frame.kid, next :: rest, .done)

/-- `reconcile`'s loop. -/
def turns (id : Nat) (src : Source) : Nat → Heap → List Frame → Heap × Ending
  | _, h, [] => (h, .done)
  | 0, h, _ :: _ => (h, .unfinished)
  | fuel + 1, h, frame :: rest =>
    match h.turn id src frame rest with
    | (h, stack, .done) => turns id src fuel h stack
    | (h, _, ending) => (h, ending)

/-- `reconcile(root_)`: the root is owned first, unless its span still describes it. -/
def reconcile (h : Heap) (id : Nat) (src : Source) (fuel : Nat) (root : Option Nat) : Heap × Option Nat × Ending :=
  match root with
  | none => (h, none, .done)
  | some r =>
    match h.cell r with
    | none => (h, some r, .done)
    | some c =>
      if c.parsed then (h, some r, .done)
      else
        let (h, r) := h.own id r
        let (h, ending) := turns id src fuel h [⟨r, 0⟩]
        (h, some r, ending)

end Heap

end Bbq.Zcow
