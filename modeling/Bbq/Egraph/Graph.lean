import Bbq.Lib.Settle

/-!
# The e-graph

`burgc/runtime/egraph.c` without an analysis (`eg_set_analysis` is not called), over an allocator that
refuses nothing.

* The children of a node are a slice of one array. The slices are disjoint, and each is kept with its node.
* `bbq_hmap` is a finite map. What is stored in a bucket is the index of the node itself, not one more.
* `eg_find` halves the path it walks, so everything that calls it gives a new graph.
* The walks to a root and along a chain of the hashcons are given as many turns as there are ids and
  nodes.
-/

namespace Bbq.Egraph

open Bbq.Lib

/-- `eg_node`. -/
structure EgNode where
  op : Int
  data : Int
  kids : List Nat
  cls : Nat
  next_hash : Option Nat
  live : Bool

/-- `egraph`. -/
structure EGraph where
  parent : List Nat
  nodes : List EgNode
  /-- `node_idx` of each class. -/
  classes : List (List Nat)
  hashcons : BitVec 64 → Option Nat
  worklist : List Nat

/-- `eg_init`. -/
def egInit : EGraph := { parent := [], nodes := [], classes := [], hashcons := fun _ => none, worklist := [] }

/-- `eg_valid`. -/
def egValid (g : EGraph) (id : Nat) : Prop := id < g.parent.length

instance (g : EGraph) (id : Nat) : Decidable (egValid g id) := inferInstanceAs (Decidable (_ < _))

/-! ## Union-find -/

/-- The parent of an id. An id that the graph did not hand out is its own. -/
def up (parent : List Nat) (id : Nat) : Nat := parent.getD id id

/-- The loop of `eg_find`. -/
def findLoop : Nat → List Nat → Nat → Nat × List Nat
  | 0, parent, id => (id, parent)
  | turns + 1, parent, id =>
    if up parent id = id then (id, parent)
    else
      let parent := parent.set id (up parent (up parent id))
      findLoop turns parent (up parent id)

def egFind (g : EGraph) (id : Nat) : Nat × EGraph :=
  let (root, parent) := findLoop g.parent.length g.parent id
  (root, { g with parent })

/-- `eg_find` of one id after the other. -/
def findAll : EGraph → List Nat → List Nat × EGraph
  | g, [] => ([], g)
  | g, id :: ids =>
    let (root, g) := egFind g id
    let (roots, g) := findAll g ids
    (root :: roots, g)

/-! ## Nodes and classes -/

def modifyNode (g : EGraph) (idx : Nat) (f : EgNode → EgNode) : EGraph := { g with nodes := g.nodes.modify idx f }

/-- `node_idx` of a class. -/
def nodeIdx (g : EGraph) (cls : Nat) : List Nat := g.classes.getD cls []

/-- `eg_new_class`. -/
def egNewClass (g : EGraph) : Nat × EGraph :=
  let id := g.classes.length
  (id, { g with classes := g.classes ++ [[]], parent := g.parent ++ [id] })

/-- `class_push`. -/
def classPush (g : EGraph) (cls idx : Nat) : EGraph := { g with classes := g.classes.modify cls (· ++ [idx]) }

/-! ## Hashcons -/

/-- `node_hash`: FNV-1a. -/
def nodeHash (op data : Int) (kids : List Nat) : BitVec 64 :=
  let mix (h w : BitVec 64) : BitVec 64 := (h ^^^ w) * 1099511628211#64
  let h := mix 1469598103934665603#64 ((BitVec.ofInt 32 op).setWidth 64)
  let h := mix h (BitVec.ofInt 64 data)
  let h := mix h ((BitVec.ofNat 32 kids.length).setWidth 64)
  kids.foldl (fun h k => mix h ((BitVec.ofNat 32 k).setWidth 64)) h

/-- `node_matches`. -/
def nodeMatches (n : EgNode) (op data : Int) (kids : List Nat) : Bool :=
  n.op == op && n.data == data && n.kids == kids

/-- `hashcons_insert`. -/
def hashconsInsert (g : EGraph) (idx : Nat) (h : BitVec 64) : EGraph :=
  let g := modifyNode g idx fun n => { n with next_hash := g.hashcons h }
  { g with hashcons := Function.update g.hashcons h (some idx) }

/-- The first live node on the chain that matches. -/
def chainFind (nodes : List EgNode) (op data : Int) (kids : List Nat) : Nat → Option Nat → Option Nat
  | turns + 1, some i =>
    match nodes[i]? with
    | none => none
    | some n =>
      if n.live && nodeMatches n op data kids then some i else chainFind nodes op data kids turns n.next_hash
  | _, _ => none

/-- The class of node `i`. -/
def clsOf (g : EGraph) (i : Nat) : Nat := (g.nodes[i]?.map EgNode.cls).getD 0

/-- `hashcons_lookup`. -/
def hashconsLookup (g : EGraph) (op data : Int) (kids : List Nat) (h : BitVec 64) : Option Nat × EGraph :=
  match chainFind g.nodes op data kids g.nodes.length (g.hashcons h) with
  | none => (none, g)
  | some i =>
    let (cls, g) := egFind g (clsOf g i)
    (some cls, g)

/-- `eg_add`; `none` is the -1 of a child that is no class of this graph. -/
def egAdd (g : EGraph) (op data : Int) (kids : List Nat) : Option Nat × EGraph :=
  if ∀ k ∈ kids, egValid g k then
    let (kids, g) := findAll g kids
    let h := nodeHash op data kids
    let (found, g) := hashconsLookup g op data kids h
    match found with
    | some cls => (some cls, g)
    | none =>
      let (cls, g) := egNewClass g
      let idx := g.nodes.length
      let g := { g with nodes := g.nodes ++ [{ op, data, kids, cls, next_hash := none, live := true }] }
      let g := classPush g cls idx
      (some cls, hashconsInsert g idx h)
  else (none, g)

/-! ## Merging and repair -/

/-- The nodes of `b` become nodes of `a`. -/
def moveNodes (g : EGraph) (a b : Nat) : EGraph :=
  let g := (nodeIdx g b).foldl (fun g idx => classPush (modifyNode g idx fun n => { n with cls := a }) a idx) g
  { g with classes := g.classes.set b [] }

/-- `eg_merge`. -/
def egMerge (g : EGraph) (a b : Nat) : Bool × EGraph :=
  if egValid g a ∧ egValid g b then
    let (a, g) := egFind g a
    let (b, g) := egFind g b
    if a = b then (false, g)
    else
      let (a, b) := if (nodeIdx g a).length < (nodeIdx g b).length then (b, a) else (a, b)
      let g := { g with parent := g.parent.set b a }
      let g := moveNodes g a b
      (true, { g with worklist := g.worklist ++ [a] })
  else (false, g)

/-- The body of the first loop of `eg_rebuild`: `canonicalise`, and off the chains. -/
def recanonicalise (g : EGraph) (i : Nat) : EGraph :=
  match g.nodes[i]? with
  | none => g
  | some n =>
    if n.live then
      let (kids, g) := findAll g n.kids
      let (cls, g) := egFind g n.cls
      modifyNode g i fun n => { n with kids, cls, next_hash := none }
    else g

/-- The body of the second loop: into the map, or merged with its twin and retired. -/
def rekey (g : EGraph) (i : Nat) : EGraph :=
  match g.nodes[i]? with
  | none => g
  | some n =>
    if n.live then
      let h := nodeHash n.op n.data n.kids
      let (found, g) := hashconsLookup g n.op n.data n.kids h
      match found with
      | some other =>
        let (mine, g) := egFind g (clsOf g i)
        let g := if other ≠ mine then (egMerge g other mine).2 else g
        modifyNode g i fun n => { n with live := false }
      | none => hashconsInsert g i h
    else g

/-- One turn of the loop of `eg_rebuild`. -/
def rebuildRound (g : EGraph) : EGraph :=
  let g := { g with worklist := [], hashcons := fun _ => none }
  let g := (List.range g.nodes.length).foldl recanonicalise g
  (List.range g.nodes.length).foldl rekey g

/-- `eg_rebuild`. -/
def egRebuild (fuel : Nat) (g : EGraph) : Option EGraph :=
  loop (fun g => some (if g.worklist = [] then .inr g else .inl (rebuildRound g))) fuel g

end Bbq.Egraph
