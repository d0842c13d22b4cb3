import Mathlib.Algebra.Ring.Int.Defs
import Mathlib.Algebra.Ring.Nat
import Bbq.Egraph.Graph

/-!
# Extraction

`eg_extract_prepare`, `eg_extract_from` and `eg_extract_excluding` (`burgc/runtime/egraph.c:513-673`), over an
allocator that refuses nothing.

* The sweeps keep the cheapest cost of each class and the node that has it, until a sweep improves nothing.
  They and the walk take fuel.
* A cost is an `int` that is not negative, and costs are added up in a `long long`. A sum past its greatest
  value has no result in C: a run that forms one is `none`, on any fuel.
* The walk's stack is a list, with the class on top first. What it emits into arrays is appended to lists; that
  the arrays are large enough is shown of what it returns.
-/

namespace Bbq.Egraph

open Bbq.Lib

/-- `eg_cost_fn`, with the `user` it is called with. -/
abbrev EgCostFn := Int → Int → Fin (2 ^ 31)

/-- `eg_extract_plan`: of each class the cost of its cheapest term and the node at the top of it. -/
structure EgExtractPlan where
  cost : List (Option Nat)
  best : List (Option Nat)

/-! ## The table -/

/-- `node_cost` from `c` on, over the children. -/
def nodeCost (cost : List (Option Nat)) : EGraph → Nat → List Nat → Option (Option Nat × EGraph)
  | g, c, [] => some (some c, g)
  | g, c, kid :: kids =>
    let (cls, g) := egFind g kid
    match cost.getD cls none with
    | none => some (none, g)
    | some kc => if c + kc < 2 ^ 63 then nodeCost cost g (c + kc) kids else none

/-- What a sweep goes through. -/
structure Preparing where
  graph : EGraph
  plan : EgExtractPlan
  improved : Bool

/-- Whether a cost is the first of its class, or less than the one it has. -/
def improves (old : Option Nat) (c : Nat) : Bool :=
  match old with
  | none => true
  | some old => decide (c < old)

variable (cost : EgCostFn) (excl : Int × Int)

/-- The body of the sweep. -/
def prepareNode (s : Preparing) (i : Nat) : Option Preparing :=
  match s.graph.nodes[i]? with
  | none => some s
  | some n =>
    if !n.live then some s
    else if n.op = excl.1 ∧ n.data = excl.2 then some s
    else
      let (cls, g) := egFind s.graph n.cls
      match nodeCost s.plan.cost g (cost n.op n.data) n.kids with
      | none => none
      | some (none, g) => some { s with graph := g }
      | some (some c, g) =>
        if improves (s.plan.cost.getD cls none) c then
          let plan := { cost := s.plan.cost.set cls (some c), best := s.plan.best.set cls (some i) }
          some { graph := g, plan, improved := true }
        else some { s with graph := g }

/-- The loop of `eg_extract_prepare`: a sweep, and on as long as it improves something. -/
def prepareRound (s : Preparing) : Option (Preparing ⊕ Preparing) :=
  ((List.range s.graph.nodes.length).foldlM (prepareNode cost excl) { s with improved := false }).map fun s =>
    if s.improved then .inl s else .inr s

/-- `eg_extract_prepare`. -/
def egExtractPrepare (fuel : Nat) (g : EGraph) : Option (EgExtractPlan × EGraph) :=
  let plan : EgExtractPlan :=
    { cost := List.replicate g.classes.length none, best := List.replicate g.classes.length none }
  (loop (prepareRound cost excl) fuel { graph := g, plan, improved := true }).map fun s => (s.plan, s.graph)

/-! ## The walk -/

/-- `eg_extract_result`. -/
structure EgExtractResult where
  ops : List Int
  data : List Int
  kid_off : List Nat
  nkids : List Nat
  kids : List Nat
  count : Nat
  root : Nat

/-- `memset` to zero. -/
def noResult : EgExtractResult :=
  { ops := [], data := [], kid_off := [], nkids := [], kids := [], count := 0, root := 0 }

/-- What the walk goes through. -/
structure Walk where
  graph : EGraph
  /-- The index a class was emitted at. -/
  memo : List (Option Nat)
  stack : List Nat
  out : EgExtractResult

/-- The classes of the children that have not been emitted. -/
def pendingKids (memo : List (Option Nat)) : EGraph → List Nat → List Nat × EGraph
  | g, [] => ([], g)
  | g, kid :: kids =>
    let (cls, g) := egFind g kid
    let (pending, g) := pendingKids memo g kids
    (if (memo.getD cls none).isNone then cls :: pending else pending, g)

/-- One turn of the walk. -/
def walkTurn (plan : EgExtractPlan) (w : Walk) : Option (Walk ⊕ Walk) :=
  match w.stack with
  | [] => some (.inr w)
  | top :: below =>
    let (cls, g) := egFind w.graph top
    if (w.memo.getD cls none).isSome then some (.inl { w with graph := g, stack := below })
    else
      match (plan.best.getD cls none).bind (g.nodes[·]?) with
      | none => none
      | some n =>
        let (pending, g) := pendingKids w.memo g n.kids
        if pending ≠ [] then some (.inl { w with graph := g, stack := pending.reverse ++ top :: below })
        else
          let memo := w.memo.set cls (some w.out.count)
          let (roots, g) := findAll g n.kids
          let out :=
            { ops := w.out.ops ++ [n.op]
              data := w.out.data ++ [n.data]
              kid_off := w.out.kid_off ++ [w.out.kids.length]
              nkids := w.out.nkids ++ [n.kids.length]
              kids := w.out.kids ++ roots.map fun cls => (memo.getD cls none).getD 0
              count := w.out.count + 1
              root := w.out.root }
          some (.inl { graph := g, memo, stack := below, out })

/-- `eg_extract_from`; the first `none` is a run without a result, the second its `false`. -/
def egExtractFrom (fuel : Nat) (g : EGraph) (plan : EgExtractPlan) (root : Nat) :
    Option (Option EgExtractResult × EGraph) :=
  if ¬ egValid g root ∨ plan.cost.length ≤ root then some (none, g)
  else
    let (root, g) := egFind g root
    if (plan.cost.getD root none).isNone then some (none, g)
    else
      let memo := List.replicate plan.cost.length none
      (loop (walkTurn plan) fuel { graph := g, memo, stack := [root], out := noResult }).map fun w =>
        (some { w.out with root := (w.memo.getD root none).getD 0 }, w.graph)

/-- `eg_extract_excluding`. -/
def egExtractExcluding (fuel : Nat) (g : EGraph) (root : Nat) : Option (Option EgExtractResult × EGraph) :=
  (egExtractPrepare cost excl fuel g).bind fun (plan, g) => egExtractFrom fuel g plan root

end Bbq.Egraph
