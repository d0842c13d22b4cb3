import Bbq.Zcow.Heap

/-!
# Documents and transients

`bbq::zcow::document` and `transient` (`backends/cpp/runtime/CaptureCow.h:580-824`) over a heap that all
versions share, and the free functions that write a leaf. `perform` is one operation: the world it
leaves, and what it returns or throws. An operation that throws leaves what it did before.
-/

namespace Bbq.Zcow

/-- `document`: one version of the tree, and the bytes its spans name. -/
structure Document where
  root : Option Nat
  src : Source
  deriving DecidableEq, Repr

/-- `transient`; `id` is 0 once it is committed. -/
structure Transient where
  root : Option Nat
  src : Source
  id : Nat
  deriving DecidableEq, Repr

/-- All versions there are. -/
structure World where
  heap : Heap
  documents : List Document
  transients : List Transient
  /-- `next_owner_id`. -/
  nextId : Nat
  deriving DecidableEq, Repr

/-- A step of a path: a name, or an index. -/
inductive PathStep
  | name (s : String)
  | index (i : Nat)
  deriving DecidableEq, Repr

/-- What an operation returns. -/
inductive Answer
  | pointer (a : Option Nat)
  | flag (b : Bool)
  | bytes (bs : List UInt8)
  | document (d : Nat)
  | transient (t : Nat)
  | nothing
  deriving DecidableEq, Repr

/-- How an operation ends. -/
inductive Result
  | returned (a : Answer)
  | threw (e : Thrown)
  /-- A walk not over within the turns given, or never. -/
  | unfinished
  /-- A shift the language gives no meaning. -/
  | undefined
  deriving DecidableEq, Repr

/-- An operation on documents and transients. -/
inductive EditOp
  /-- `document::begin_edit`. -/
  | beginEdit (d : Nat)
  /-- A node built from nothing, over nodes that are there. -/
  | build (c : Cell) (kids : List Nat)
  | rootMut (t : Nat)
  | ownPath (t : Nat) (path : List PathStep)
  | ownChild (t parent i : Nat)
  | ownChildNamed (t parent : Nat) (name : String)
  | splice (t n : Nat) (bs : List UInt8)
  | append (t container : Nat) (type : CaptureType)
  /-- `append` of a subtree that already exists. -/
  | attach (t container child : Nat)
  | replace (t container i child : Nat)
  | remove (t container i : Nat)
  | setInt (n : Nat) (v : Int64) (e : Enc)
  | setUint (n : Nat) (v : UInt64) (e : Enc)
  | setFloat (n : Nat) (v : Double)
  | setBytes (n : Nat) (bs : List UInt8)
  | writeBits (n : Nat) (entry : String) (src : Source) (v : Int64)
  | serialize (t fuel : Nat)
  | commit (t fuel : Nat)
  deriving DecidableEq, Repr

namespace World

/-- `check`: the transient, unless it was committed. -/
def check (w : World) (t : Nat) : Except Thrown Transient :=
  match w.transients[t]? with
  | none => .error (.invalidated "transient used after commit()")
  | some tr => if tr.id = 0 then .error (.invalidated "transient used after commit()") else .ok tr

def setRoot (w : World) (t : Nat) (root : Option Nat) : World :=
  { w with transients := w.transients.modify t fun tr => { tr with root } }

def setHeap (w : World) (h : Heap) : World := { w with heap := h }

/-- `own(root_)`, and its address. -/
def ownRoot (w : World) (t : Nat) (tr : Transient) (r : Nat) : World × Nat :=
  ((w.setHeap (w.heap.own tr.id r).1).setRoot t (some (w.heap.own tr.id r).2), (w.heap.own tr.id r).2)

/-- `slot_of`. -/
def slotOf (h : Heap) (a : Nat) : PathStep → Option Nat
  | .name s => h.kidNamed a s
  | .index i => (h[a]?).bind fun n => if i < n.kids.length then some i else none

/-- No longer described by its span. -/
def unparse (c : Cell) : Cell := { c with parsed := false }

/-- A child was added or dropped. -/
def resize (c : Cell) : Cell := { c with parsed := false, resized := true }

/-- The descent of `own_path` below the node at `a`. -/
def descend (id : Nat) : Heap → Nat → List PathStep → Heap × Option Nat
  | h, a, [] => (h, some a)
  | h, a, s :: path =>
    match slotOf h a s with
    | none => (h, none)
    | some i =>
      match h.ownKid id a i with
      | none => (h, none)
      | some (h, k) => descend id (h.modifyCell k unparse) k path

def ownPath (w : World) (t : Nat) (tr : Transient) (path : List PathStep) : World × Answer :=
  match tr.root with
  | none => (w, .pointer none)
  | some r =>
    let (w, r) := w.ownRoot t tr r
    let (h, a) := descend tr.id (w.heap.modifyCell r unparse) r path
    (w.setHeap h, .pointer a)

def ownChild (w : World) (tr : Transient) (parent i : Nat) : World × Answer :=
  match slotOf w.heap parent (.index i) with
  | none => (w, .pointer none)
  | some i =>
    match (w.heap.modifyCell parent unparse).ownKid tr.id parent i with
    | none => (w, .pointer none)
    | some (h, k) => (w.setHeap (h.modifyCell k unparse), .pointer (some k))

/-- `splice`, on the cell. -/
def spliced (bs : List UInt8) (c : Cell) : Cell :=
  { c with
    bval := bs, type := .bytes, enc := .fixed, parsed := false
    resized := if bs.length ≠ c.endOffset - c.startOffset then true else c.resized }

/-- The element `append` makes. -/
def element (id : Nat) (type : CaptureType) : HeapNode :=
  { cell := { (default : Cell) with type := type, parsed := false, owner := id }, kids := [] }

/-- A setter: `set` on the cell of a node that exists. -/
def setLeaf (w : World) (n : Nat) (set : Cell → Except Result Cell) : World × Result :=
  match w.heap.cell n with
  | none => (w, .threw (.typeError "write to a node that does not exist"))
  | some c =>
    match set c with
    | .error r => (w, r)
    | .ok c' => (w.setHeap (w.heap.modifyCell n fun _ => c'), .returned .nothing)

/-- `write_bits` on the heap: a run, its entries under it. -/
def bitsCell (h : Heap) (n : Nat) (entry : String) (src : Source) (v : Int64) (c : Cell) : Except Result Cell :=
  let entries := (((h[n]?).map HeapNode.kids).getD []).filterMap h.cell
  match Zcow.writeBits (.mk c (entries.map fun k => .mk k [])) entry src.bytes v with
  | .ok run => .ok run.cell
  | .error (.typeError message) => .error (.threw (.typeError message))
  | .error .undefined => .error .undefined

/-- The settling pass both `serialize` and `commit` begin with. -/
def settle (w : World) (t : Nat) (tr : Transient) (fuel : Nat) : World × Heap.Ending :=
  let (h, root, ending) := w.heap.reconcile tr.id tr.src fuel tr.root
  ((w.setHeap h).setRoot t root, ending)

/-- `emit_document`, of what is under a root. -/
def emit (h : Heap) (src : Source) (root : Option Nat) : Result :=
  match root with
  | none => .returned (.bytes [])
  | some r =>
    match h.unfold (h.length + 1) r with
    | none => .unfinished
    | some n =>
      match emitDocument (some n) src with
      | .ok bs => .returned (.bytes bs)
      | .error e => .threw e

/-- An operation of a transient that is live. -/
def edit (w : World) (t : Nat) (tr : Transient) : EditOp → World × Result
  | .rootMut _ =>
    match tr.root with
    | none => (w, .returned (.pointer none))
    | some r =>
      let (w, r) := w.ownRoot t tr r
      (w, .returned (.pointer (some r)))
  | .ownPath _ path =>
    let (w, a) := w.ownPath t tr path
    (w, .returned a)
  | .ownChild _ parent i =>
    let (w, a) := w.ownChild tr parent i
    (w, .returned a)
  | .ownChildNamed _ parent name =>
    match w.heap.kidNamed parent name with
    | none => (w, .returned (.pointer none))
    | some i =>
      let (w, a) := w.ownChild tr parent i
      (w, .returned a)
  | .splice _ n bs =>
    match w.heap[n]? with
    | none => (w, .returned (.pointer none))
    | some _ =>
      (w.setHeap ((w.heap.modifyKids n fun _ => []).modifyCell n (spliced bs)), .returned (.pointer (some n)))
  | .append _ container type =>
    match w.heap[container]? with
    | none => (w, .returned (.pointer none))
    | some _ =>
      let e := w.heap.length
      (w.setHeap (((w.heap ++ [element tr.id type]).modifyCell container resize).modifyKids container (· ++ [e])),
        .returned (.pointer (some e)))
  | .attach _ container child =>
    match w.heap[container]?, w.heap[child]? with
    | some _, some _ =>
      (w.setHeap ((w.heap.modifyCell container resize).modifyKids container (· ++ [child])),
        .returned (.pointer (some child)))
    | _, _ => (w, .returned (.pointer none))
  | .replace _ container i child =>
    match w.heap[container]?, w.heap[child]? with
    | some n, some _ =>
      if i < n.kids.length then
        (w.setHeap ((w.heap.modifyCell container resize).modifyKids container fun ks => ks.set i child),
          .returned (.flag true))
      else (w, .returned (.flag false))
    | _, _ => (w, .returned (.flag false))
  | .remove _ container i =>
    match w.heap[container]? with
    | some n =>
      if i < n.kids.length then
        (w.setHeap ((w.heap.modifyCell container resize).modifyKids container fun ks => ks.eraseIdx i),
          .returned (.flag true))
      else (w, .returned (.flag false))
    | none => (w, .returned (.flag false))
  | .serialize _ fuel =>
    let (w, ending) := w.settle t tr fuel
    match ending with
    | .done => (w, emit w.heap tr.src ((w.transients[t]?).bind Transient.root))
    | .threw e => (w, .threw e)
    | .unfinished => (w, .unfinished)
  | .commit _ fuel =>
    let (w, ending) := w.settle t tr fuel
    match ending with
    | .done =>
      ({ w with
          documents := w.documents ++ [⟨(w.transients[t]?).bind Transient.root, tr.src⟩]
          transients := w.transients.set t ⟨none, none, 0⟩ }, .returned (.document w.documents.length))
    | .threw e => (w, .threw e)
    | .unfinished => (w, .unfinished)
  | _ => (w, .returned .nothing)

/-- The transient an operation is one of. -/
def subject : EditOp → Option Nat
  | .rootMut t | .ownPath t _ | .ownChild t _ _ | .ownChildNamed t _ _ | .splice t _ _ | .append t _ _
  | .attach t _ _ | .replace t _ _ _ | .remove t _ _ | .serialize t _ | .commit t _ => some t
  | _ => none

/-- One operation. -/
def perform (w : World) (o : EditOp) : World × Result :=
  match o with
  | .beginEdit d =>
    match w.documents[d]? with
    | none => (w, .returned .nothing)
    | some doc =>
      ({ w with transients := w.transients ++ [⟨doc.root, doc.src, w.nextId⟩], nextId := w.nextId + 1 },
        .returned (.transient w.transients.length))
  | .build c kids =>
    if kids.all (· < w.heap.length) then
      (w.setHeap (w.heap ++ [⟨{ c with owner := 0 }, kids⟩]), .returned (.pointer (some w.heap.length)))
    else (w, .returned (.pointer none))
  | .setInt n v e => w.setLeaf n fun c => (Zcow.setInt c v e).mapError .threw
  | .setUint n v e => w.setLeaf n fun c => (Zcow.setUint c v e).mapError .threw
  | .setFloat n v => w.setLeaf n fun c => (Zcow.setFloat c v).mapError .threw
  | .setBytes n bs => w.setLeaf n fun c => .ok (Zcow.setBytes c bs)
  | .writeBits n entry src v => w.setLeaf n (bitsCell w.heap n entry src v)
  | o =>
    match (subject o).map w.check with
    | none => (w, .returned .nothing)
    | some (.error e) => (w, .threw e)
    | some (.ok tr) => w.edit ((subject o).getD 0) tr o

def step (w : World) (o : EditOp) : World := (w.perform o).1

def run (w : World) (ops : List EditOp) : World := ops.foldl step w

end World

end Bbq.Zcow
