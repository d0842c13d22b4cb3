import Bbq.Egraph.Analysis
import Mathlib.Logic.Function.Basic

/-!
# The generated rewriter

What `emit_rewriter` of `burgc/src/rewrite_backend.cpp` writes for the REWRITE section of a grammar, and
`eg_saturate`, which runs it.

* An id is `none` where the C code has -1. A binder that no loop has bound yet is `none` too.
* The text of a guard and the auxiliaries are functions of what the graph shows (`View`): the roots and the
  facts, not the parents by which a root is reached.
* The readers' own finds leave the graph as it is: they halve paths and move no root.
* The record of fires is left out, as for a `run` that is NULL.
-/

namespace Bbq.Egraph

/-! ## What a matcher reads -/

/-- The indices of the live nodes of a class, in the order of its list. -/
def liveNodes (g : EGraph) : Option Nat → List Nat
  | none => []
  | some cls =>
    if egValid g cls then (nodeIdx g (root g.parent cls)).filter fun i => (g.nodes[i]?.map EgNode.live).getD false
    else []

/-- `class_live_node`, and the node there. -/
def classLiveNode (g : EGraph) (cls : Option Nat) (i : Nat) : Option EgNode :=
  ((liveNodes g cls)[i]?).bind fun idx => g.nodes[idx]?

/-- `eg_class_count`. -/
def egClassCount (g : EGraph) : Nat := g.classes.length

/-- `eg_class_nodes`. -/
def egClassNodes (g : EGraph) (cls : Option Nat) : Nat := (liveNodes g cls).length

/-- `eg_class_node_op`. -/
def egClassNodeOp (g : EGraph) (cls : Option Nat) (i : Nat) : Int := ((classLiveNode g cls i).map EgNode.op).getD (-1)

/-- `eg_class_node_data`. -/
def egClassNodeData (g : EGraph) (cls : Option Nat) (i : Nat) : Int := ((classLiveNode g cls i).map EgNode.data).getD 0

/-- `eg_class_node_nkids`. -/
def egClassNodeNkids (g : EGraph) (cls : Option Nat) (i : Nat) : Int :=
  ((classLiveNode g cls i).map fun n => (n.kids.length : Int)).getD (-1)

/-- `eg_class_node_kid`. -/
def egClassNodeKid (g : EGraph) (cls : Option Nat) (i k : Nat) : Option Nat :=
  (classLiveNode g cls i).bind fun n => (n.kids[k]?).map (root g.parent)

/-- What the accessors show of a graph. -/
structure View (D : Type) where
  count : Nat
  root : Nat → Nat
  nodes : List EgNode
  classes : List (List Nat)
  class_data : List D

variable {D : Type}

def view (s : Analysed D) : View D where
  count := s.graph.parent.length
  root := root s.graph.parent
  nodes := s.graph.nodes
  classes := s.graph.classes
  class_data := s.class_data

/-! ## Rules -/

/-- `RewritePat`. The operator is the number of the terminal. -/
inductive RewritePat where
  | binder (name : String)
  | node (op : Int) (children : List RewritePat)

/-- `RewriteTmpl`; `matched` is `$$`. -/
inductive RewriteTmpl where
  | binder (name : String)
  | matched
  | node (op : Int) (children : List RewriteTmpl)
  | helper (name : String) (children : List RewriteTmpl)

/-- The C variables of the binders. -/
abbrev Env := String → Option Nat

def noEnv : Env := fun _ => none

mutual

/-- The binders of a pattern. -/
def binders : RewritePat → List String
  | .binder name => [name]
  | .node _ ps => bindersAll ps

def bindersAll : List RewritePat → List String
  | [] => []
  | p :: ps => binders p ++ bindersAll ps

end

mutual

/-- The binders that a template refers to. -/
def references : RewriteTmpl → List String
  | .binder name => [name]
  | .matched => []
  | .node _ ts => referencesAll ts
  | .helper _ ts => referencesAll ts

def referencesAll : List RewriteTmpl → List String
  | [] => []
  | t :: ts => references t ++ referencesAll ts

end

/-- `RewriteRule` as `validate_rewrites` lets it pass. The pattern is a constructor with `children`. -/
structure RewriteRule (D : Type) where
  op : Int
  children : List RewritePat
  /-- The text after `if`; the last argument is `c`. -/
  guard : View D → Env → Nat → Bool
  tmpl : RewriteTmpl
  bound : ∀ name ∈ references tmpl, name ∈ bindersAll children

/-! ## The matcher of a rule -/

/-- The graph, and `changed`. -/
structure Turn (D : Type) where
  state : Analysed D
  changed : Bool

/-- The body of the loop that `emit_match` opens for a constructor, with what it does with the children. -/
def matchTurn (op : Int) (arity : Nat) (cls : Option Nat) (body : Nat → List (Option Nat) → Turn D → Turn D)
    (t : Turn D) (n : Nat) : Turn D :=
  let g := t.state.graph
  if egClassNodeOp g cls n = op ∧ egClassNodeNkids g cls n = arity then
    body n ((List.range arity).map (egClassNodeKid g cls n)) t
  else t

/-- The loop. -/
def matchNode (op : Int) (arity : Nat) (cls : Option Nat) (body : Nat → List (Option Nat) → Turn D → Turn D)
    (t : Turn D) : Turn D :=
  (List.range (egClassNodes t.state.graph cls)).foldl (matchTurn op arity cls body) t

mutual

/-- `emit_match`: the loops for a pattern, around what `k` does with the binders. -/
def matchPat : RewritePat → Option Nat → Env → (Env → Turn D → Turn D) → Turn D → Turn D
  | .binder name, cls, env, k => k (Function.update env name cls)
  | .node op children, cls, env, k => matchNode op children.length cls fun _ kids => matchPats children kids env k

def matchPats : List RewritePat → List (Option Nat) → Env → (Env → Turn D → Turn D) → Turn D → Turn D
  | [], _, env, k => k env
  | p :: ps, kids, env, k => matchPat p (kids.headD none) env fun env => matchPats ps kids.tail env k

end

variable (an : EgAnalysis D) (aux : String → View D → List (Option Nat) → Option Nat)

/-- `eg_add` with ids that may be -1. -/
def addNodeOf (s : Analysed D) (op data : Int) (kids : List (Option Nat)) : Option Nat × Analysed D :=
  if none ∈ kids then (none, s) else addFact an s op data (kids.filterMap fun k => k)

mutual

/-- `emit_build`. A node has the data of the matched one, the node `n0` of class `c`. -/
def build (c n0 : Nat) (env : Env) : RewriteTmpl → Analysed D → Option Nat × Analysed D
  | .binder name, s => (env name, s)
  | .matched, s => (some c, s)
  | .node op ts, s =>
    let (kids, s) := builds c n0 env ts s
    addNodeOf an s op (egClassNodeData s.graph (some c) n0) kids
  | .helper name ts, s =>
    let (kids, s) := builds c n0 env ts s
    (aux name (view s) kids, s)

def builds (c n0 : Nat) (env : Env) : List RewriteTmpl → Analysed D → List (Option Nat) × Analysed D
  | [], s => ([], s)
  | t :: ts, s =>
    let (id, s) := build c n0 env t s
    let (ids, s) := builds c n0 env ts s
    (id :: ids, s)

end

/-- The innermost body: the guard, the template, and the merge. -/
def fire (rule : RewriteRule D) (c n0 : Nat) (env : Env) (t : Turn D) : Turn D :=
  if rule.guard (view t.state) env c then
    match build an aux c n0 env rule.tmpl t.state with
    | (some built, s) =>
      let (merged, s) := mergeFact an s c built
      { state := s, changed := t.changed || merged }
    | (none, s) => { t with state := s }
  else t

/-- The loops of a rule at class `c`, which is passed over where it has been merged away. -/
def classTurn (rule : RewriteRule D) (t : Turn D) (c : Nat) : Turn D :=
  if root t.state.graph.parent c = c then
    matchNode rule.op rule.children.length (some c)
      (fun n0 kids => matchPats rule.children kids noEnv (fire an aux rule c n0)) t
  else t

/-- The matcher of a rule. -/
def rwRule (rule : RewriteRule D) (s : Analysed D) : Turn D :=
  (List.range (egClassCount s.graph)).foldl (classTurn an aux rule) { state := s, changed := false }

def ruleTurn (t : Turn D) (rule : RewriteRule D) : Turn D :=
  let t' := rwRule an aux rule t.state
  { t' with changed := t.changed || t'.changed }

/-- One pass over the rule set. -/
def rewriteRound (rules : List (RewriteRule D)) (s : Analysed D) : Turn D :=
  rules.foldl (ruleTurn an aux) { state := s, changed := false }

/-! ## `eg_saturate` -/

/-- `eg_caps`. -/
structure EgCaps where
  rounds : Nat
  node_budget : Nat

/-- The loop, with `left` rounds to go to the cap. -/
def saturateLoop (pass : Analysed D → Turn D) (rebuild : Analysed D → Option (Analysed D)) (budget : Nat) :
    Nat → Analysed D → Option (Nat × Analysed D)
  | 0, s => some (0, s)
  | left + 1, s =>
    if s.graph.nodes.length < budget then
      let t := pass s
      (rebuild t.state).bind fun s =>
        if t.changed then (saturateLoop pass rebuild budget left s).map fun (r, s) => (r + 1, s) else some (1, s)
    else some (0, s)

/-- `eg_saturate`: the number of rounds, and the graph. -/
def egSaturate (pass : Analysed D → Turn D) (rebuild : Analysed D → Option (Analysed D)) (caps : EgCaps)
    (s : Analysed D) : Option (Nat × Analysed D) :=
  saturateLoop pass rebuild caps.node_budget caps.rounds s

/-- The rounds that `eg_saturate` runs: the graph before each, and what the round leaves to `eg_rebuild`. -/
def turns (pass : Analysed D → Turn D) (rebuild : Analysed D → Option (Analysed D)) (budget : Nat) :
    Nat → Analysed D → List (Analysed D × Turn D)
  | 0, _ => []
  | left + 1, s =>
    if s.graph.nodes.length < budget then
      let t := pass s
      (s, t) :: if t.changed then ((rebuild t.state).map (turns pass rebuild budget left)).getD [] else []
    else []

end Bbq.Egraph
