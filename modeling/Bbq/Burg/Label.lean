import Mathlib.Algebra.BigOperators.Group.List.Basic
import Mathlib.Algebra.Ring.Int.Defs
import Mathlib.Algebra.Ring.Nat
import Bbq.Burg.Derive

/-!
# The emitted labeller

What the code of `burgc/src/generator.cpp` (`emit_label_*`, `emit_closures`, `emit_dp_body`) does when it
labels a tree.

* The emitted expressions walk states, and those of the reducer walk nodes and states side by side.
  What they walk is a parameter (`View`), so that each is written once.
* Reading a child that a node does not have gives `none`. So does a call of `burg_set_error` where it
  throws (`polls` false, the C++ backend). Where it latches the first error (the C backend), labelling
  goes on. Allocations are not refused.
* Costs and rule numbers are stored in `short`s and computed in `int`s, which wrap round.
* The recursion of the closures takes fuel.
-/

namespace Bbq.Burg

variable {α τ : Type}

/-- `(short)n`. -/
def short (n : Int) : Int := n.bmod (2 ^ 16)

/-- `(int)n`. -/
def int32 (n : Int) : Int := n.bmod (2 ^ 32)

/-- `BURG_MAX_COST`, which is `SHRT_MAX`. -/
def maxCost : Nat := 32767

/-- The arrays of a state. -/
structure Table where
  cost : String → Int
  rule : String → Int

/-- `burg_state_t`. -/
inductive State
  | mk (op : String) (table : Table) (children : List State)

namespace State

def op : State → String
  | .mk op _ _ => op

def table : State → Table
  | .mk _ table _ => table

def children : State → List State
  | .mk _ _ children => children

end State

/-! ## Walking patterns -/

/-- What emitted expressions read of the things they walk. -/
structure View (τ : Type) where
  children : τ → List τ
  op : τ → String
  /-- `rule[nt]` is not zero. -/
  covered : τ → String → Bool

def State.view : View State := ⟨State.children, State.op, fun s nt => s.table.rule nt ≠ 0⟩

variable (G : Spec) (V : View τ)

mutual

/-- `emit_pattern_guards` for the children of a pattern. -/
def emitPatternGuards : List TreePattern → List τ → Option Bool
  | [], _ => some true
  | _ :: _, [] => none
  | p :: ps, t :: ts => (guardOperand p t).bind fun b => if b then emitPatternGuards ps ts else some false

/-- What it emits for one of them. -/
def guardOperand : TreePattern → τ → Option Bool
  | .mk name ps, t =>
    if ps.isEmpty then some (if G.isTerminal name then V.op t == name else V.covered t name)
    else if V.op t = name then emitPatternGuards ps (V.children t) else some false

end

/-- `pattern_guard`. -/
def patternGuard (p : TreePattern) (t : τ) : Option Bool :=
  if p.isLeaf then
    if G.hasOperandRule p.name ∧ V.children t ≠ [] then some false else some true
  else if p.children.length ≤ (V.children t).length then emitPatternGuards G V p.children (V.children t)
  else some false

/-- The nonterminals among the operands of an operand. -/
def innerLeaves : List TreePattern → List τ → Option (List (τ × String))
  | [], _ => some []
  | p :: ps, ts =>
    let here := if G.isNonterm p then ts.head?.map fun t => [(t, p.name)] else some []
    here.bind fun leaves => (innerLeaves ps ts.tail).map fun rest => leaves ++ rest

/-- The nonterminals that `pattern_cost_expr` adds up and `emit_child_reductions` reduces: those among the
operands and those among their operands. -/
def outerLeaves (children : τ → List τ) : List TreePattern → List τ → Option (List (τ × String))
  | [], _ => some []
  | p :: ps, ts =>
    let here :=
      if G.isNonterm p then ts.head?.map fun t => [(t, p.name)]
      else if p.isLeaf then some []
      else ts.head?.bind fun t => innerLeaves G p.children (children t)
    here.bind fun leaves => (outerLeaves children ps ts.tail).map fun rest => leaves ++ rest

/-- The children beyond the operands of the pattern, for the start nonterminal. -/
def extras (children : τ → List τ) (p : TreePattern) (t : τ) : List (τ × String) :=
  ((children t).drop p.children.length).map fun c => (c, G.startNonterm)

/-- All that the code emitted for a pattern adds up, and reduces. -/
def visited (children : τ → List τ) (p : TreePattern) (t : τ) : Option (List (τ × String)) :=
  (outerLeaves G children p.children (children t)).map fun leaves => leaves ++ extras G children p t

/-- What is derived before a rule is used: a chain rule goes on at the same place. -/
def walked (children : τ → List τ) (p : TreePattern) (t : τ) : Option (List (τ × String)) :=
  if G.isNonterm p then some [(t, p.name)] else visited G children p t

/-! ## Dynamic programming -/

/-- `pattern_cost_expr`. -/
def patternCost (p : TreePattern) (s : State) : Option Int :=
  (outerLeaves G State.children p.children s.children).map fun leaves =>
    (leaves.map fun (c, nt) => c.table.cost nt).sum

/-- `c` of a rule: its cost expression, and the loop over the children beyond it. -/
def ruleCost (r : Rule) (s : State) : Option Int :=
  (patternCost G r.pattern s).map fun sum =>
    (extras G State.children r.pattern s).foldl (fun c (child, nt) => int32 (c + child.table.cost nt))
      (int32 (sum + r.cost))

/-- `chains_to[nt]`. -/
def chainsFrom (nt : String) : List Rule := G.chainRules.filter fun r => r.pattern.name == nt

/-- `rules_by_term[op]`. -/
def rulesByTerm (op : String) : List Rule := G.rules.filter fun r => !G.isNonterm r.pattern && r.pattern.name == op

namespace Table

/-- `cost[i] = BURG_MAX_COST; rule[i] = 0`. -/
def init : Table := { cost := fun _ => maxCost, rule := fun _ => 0 }

/-- `cost[nt] = c; rule[nt] = number`. -/
def put (p : Table) (nt : String) (c : Int) (number : Nat) : Table :=
  { cost := Function.update p.cost nt (short c), rule := Function.update p.rule nt (short number) }

end Table

/-- `closure_<nt>(p, c, node)`, with the guards as they are at the node. -/
def closure (guard : Rule → Bool) : Nat → String → Int → Table → Option Table
  | 0, _, _, _ => none
  | fuel + 1, nt, c, p =>
    (chainsFrom G nt).foldlM (fun p r =>
      if guard r ∧ int32 (c + r.cost) < p.cost r.nonterm then
        let p' := p.put r.nonterm (int32 (c + r.cost)) r.rule_number
        if (chainsFrom G r.nonterm).isEmpty then some p' else closure guard fuel r.nonterm (int32 (c + r.cost)) p'
      else some p) p

/-- The arm of `emit_label_dp_switch` for one rule. -/
def tryRule (guard : Rule → Bool) (fuel : Nat) (s : State) (p : Table) (r : Rule) : Option Table :=
  (patternGuard G State.view r.pattern s).bind fun fits =>
    if fits ∧ guard r then
      (ruleCost G r s).bind fun c =>
        if c < p.cost r.nonterm then
          let p' := p.put r.nonterm c r.rule_number
          if (chainsFrom G r.nonterm).isEmpty then some p' else closure G guard fuel r.nonterm c p'
        else some p
    else some p

/-- The error latch of the context, with the message and its argument. -/
abbrev Ctx := Option (String × String)

/-- `burg_dp`, on the state that `emit_label_alloc` made and the labels of the children. -/
def burgDp (eval : String → Node α → Bool) (polls : Bool) (fuel : Nat) (u : Node α) (children : List State)
    (ctx : Ctx) : Option (State × Ctx) :=
  let s := State.mk u.op .init children
  match rulesByTerm G u.op with
  | [] => if polls then some (s, ctx.or (some ("burg: unknown opcode in match", u.op))) else none
  | rules =>
    (rules.foldlM (tryRule G (fun r => r.holds eval u) fuel s) s.table).map fun table =>
      (State.mk u.op table children, ctx)

variable (eval : String → Node α → Bool) (polls : Bool) (fuel : Nat)

mutual

/-- `burg_label_tree`. -/
def labelTree : Node α → Ctx → Option (State × Ctx)
  | .mk op data us, ctx =>
    (labelTrees us ctx).bind fun (children, ctx) => burgDp G eval polls fuel (.mk op data us) children ctx

def labelTrees : List (Node α) → Ctx → Option (List State × Ctx)
  | [], ctx => some ([], ctx)
  | u :: us, ctx =>
    (labelTree u ctx).bind fun (s, ctx) => (labelTrees us ctx).map fun (ss, ctx) => (s :: ss, ctx)

end

end Bbq.Burg
