import Bbq.Burg.Spec
import Bbq.Lib.Passes

/-!
# The tree automaton of the completeness analysis

`build_automaton` of `burgc/src/completeness.cpp`: the labeller without costs, run on classes of trees instead of trees.

* A state is a terminal and the nonterminals derived from a tree with it at the root. Guards are taken to be true.
* At a position of an operator the states fall into classes (`Rep`) by what rules ask for there. A transition is worked out
  once for each tuple of classes.
* `collect_terminal_arities` gives an `unordered_map`, whose order is a parameter (`TerminalArities`). The classes of a
  position are kept in one function of operators and positions.
* The worklist may run long: it takes fuel. A chain closure is given as many passes as there are bits, and one more.
-/

namespace Bbq.Burg.Completeness

open Bbq.Lib

/-- `NontermBits`. -/
abbrev NontermBits := BitVec 64

/-- `MAX_NONTERMS`. -/
def maxNonterms : Nat := 64

def bit (nt_index_1based : Nat) : NontermBits := 1#64 <<< (nt_index_1based - 1)

/-- `bits & bit(i)`, as a condition. -/
def has (bits : NontermBits) (i : Nat) : Bool := bits &&& bit i != 0#64

/-- The rules that contribute to the bits of a state: the index of the nonterminal, and the number of the rule. -/
abbrev Contributors := List (Nat × Nat)

/-- `StateKey`. -/
structure StateKey where
  terminal : String
  bits : NontermBits
  deriving DecidableEq

/-- `State`. -/
structure State where
  key : StateKey
  contributors : Contributors

/-- `RepKey`. -/
structure RepKey where
  bits : NontermBits
  terminal : String
  deriving DecidableEq

/-- `Rep`: a class of states. -/
structure Rep where
  key : RepKey
  members : List Nat
  any_covered_member : Bool

/-- `PositionDemand`. -/
structure PositionDemand where
  accepted_nts : NontermBits
  accepted_terms : List String

/-- `OpDim` without its classes. -/
structure OpDim where
  /-- `match_nts` and `match_terms`. -/
  matched : PositionDemand
  /-- `enum_nts` and `enum_terms`. -/
  enumerated : PositionDemand

/-- `OpInfo`. -/
structure OpInfo where
  term : String
  dims : List OpDim

/-- `TransitionRecord`, with `none` for the operator -1. -/
structure TransitionRecord where
  terminal : String
  op : Option Nat
  child_reps : List Nat
  dest : Nat

/-- `Automaton`, with the worklist. -/
structure Automaton where
  states : List State
  ops : List OpInfo
  reps : Nat → Nat → List Rep
  transitions : List TransitionRecord
  missing_witnesses : List TransitionRecord
  tuples_evaluated : Nat
  worklist : List Nat

/-- `AsdlSchema`. -/
structure AsdlSchema where
  constructor_node_fields : String → Option (List String)
  sum_constructors : String → Option (List String)

variable (G : Spec)

/-- `nonterm_index`. -/
def ntIndex (name : String) : Option Nat := (G.nonterms.findIdx? (· == name)).map (· + 1)

/-! ## Transitions -/

/-- What a rule asks of the state at an operand. -/
def operandMatches (p : TreePattern) (key : RepKey) : Bool :=
  if p.isLeaf && G.isTerminal p.name then key.terminal == p.name
  else if p.isLeaf then (ntIndex G p.name).elim false (has key.bits)
  else key.terminal == p.name

/-- `rule_matches`. -/
def ruleMatches (r : Rule) (term : String) (tuple : List RepKey) : Bool :=
  r.pattern.name == term && r.pattern.children.length == tuple.length &&
    (r.pattern.children.zip tuple).all fun (p, key) => operandMatches G p key

/-- What `chain_close` goes through. -/
structure Closing where
  bits : NontermBits
  contributors : Contributors
  changed : Bool

/-- The body of its inner loop. -/
def chainStep (c : Closing) (cr : Rule) : Closing :=
  match ntIndex G cr.pattern.name, ntIndex G cr.nonterm with
  | some from_idx, some to_idx =>
    if has c.bits from_idx then
      let contributors := c.contributors.insert (to_idx, cr.rule_number)
      if has c.bits to_idx then { c with contributors }
      else { bits := c.bits ||| bit to_idx, contributors, changed := true }
    else c
  | _, _ => c

/-- `chain_close`. -/
def chainClose (bits : NontermBits) (contributors : Contributors) : NontermBits × Contributors :=
  let c := passes Closing.changed (chainStep G) (fun c => { c with changed := false }) G.chainRules (maxNonterms + 1)
    { bits, contributors, changed := true }
  (c.bits, c.contributors)

/-- The body of the loop of `compute_transition`. -/
def addRule (term : String) (tuple : List RepKey) (acc : NontermBits × Contributors) (r : Rule) :
    NontermBits × Contributors :=
  if r.pattern.name == term && ruleMatches G r term tuple then
    (ntIndex G r.nonterm).elim acc fun i => (acc.1 ||| bit i, acc.2.insert (i, r.rule_number))
  else acc

/-- `compute_transition`. -/
def computeTransition (term : String) (tuple : List RepKey) : NontermBits × Contributors :=
  let (bits, contributors) := G.rules.foldl (addRule G term tuple) (0#64, [])
  chainClose G bits contributors

/-! ## Demands -/

/-- Pairs of a terminal at the root of a pattern and the number of its operands. -/
def rootArities : List (String × Nat) :=
  (G.rules.filter fun r => G.isTerminal r.pattern.name).map fun r => (r.pattern.name, r.pattern.children.length)

/-- `collect_terminal_arities`, in the order in which it is gone through. -/
structure TerminalArities where
  pairs : List (String × Nat)
  nodup : pairs.Nodup
  complete : ∀ p, p ∈ pairs ↔ p ∈ rootArities G

/-- What an operand adds to the demand at its position. -/
def addDemand (d : PositionDemand) (p : TreePattern) : PositionDemand :=
  if p.isLeaf && G.isTerminal p.name then { d with accepted_terms := d.accepted_terms.insert p.name }
  else if p.isLeaf then (ntIndex G p.name).elim d fun i => { d with accepted_nts := d.accepted_nts ||| bit i }
  else { d with accepted_terms := d.accepted_terms.insert p.name }

/-- The operands at position `i` of the patterns of a terminal with that many operands. -/
def operandsAt (term : String) (arity i : Nat) : List TreePattern :=
  (G.rules.filter fun r => r.pattern.name == term && r.pattern.children.length == arity).filterMap fun r =>
    r.pattern.children[i]?

/-- What the rules ask for at a position. -/
def ruleDemand (term : String) (arity i : Nat) : PositionDemand :=
  (operandsAt G term arity i).foldl (addDemand G) { accepted_nts := 0#64, accepted_terms := [] }

/-- `compute_position_demands`. -/
def positionDemand (schema : Option AsdlSchema) (term : String) (arity i : Nat) : PositionDemand :=
  let overlay : Option PositionDemand := do
    let schema ← schema
    let node_fields ← schema.constructor_node_fields term
    if node_fields.length = arity then
      let constructors ← schema.sum_constructors (node_fields.getD i "")
      some { accepted_nts := 0#64, accepted_terms := constructors }
    else none
  overlay.getD (ruleDemand G term arity i)

/-- The operator table. -/
def opTable (schema : Option AsdlSchema) (order : TerminalArities G) : List OpInfo :=
  (order.pairs.filter fun p => p.2 ≠ 0).map fun (term, arity) =>
    { term
      dims := (List.range arity).map fun i =>
        { matched := ruleDemand G term arity i, enumerated := positionDemand G schema term arity i } }

/-! ## The worklist -/

/-- `intern`: the number of the state, which is put on the worklist if it is new. -/
def intern (aut : Automaton) (key : StateKey) (contributors : Contributors) : Nat × Automaton :=
  match aut.states.findIdx? fun st => st.key == key with
  | some id =>
    (id, { aut with
      states := aut.states.modify id fun st => { st with contributors := contributors ∪ st.contributors } })
  | none =>
    (aut.states.length, { aut with
      states := aut.states ++ [{ key, contributors }], worklist := aut.worklist ++ [aut.states.length] })

/-- `record_transition`. -/
def recordTransition (aut : Automaton) (t : TransitionRecord) : Automaton :=
  let aut := { aut with transitions := aut.transitions ++ [t] }
  if (aut.states[t.dest]?.map fun st => st.key.bits) = some 0#64 then
    { aut with missing_witnesses := aut.missing_witnesses ++ [t] }
  else aut

/-- A transition worked out, its state interned, and recorded. -/
def evaluate (aut : Automaton) (term : String) (op : Option Nat) (reps : List Nat) (keys : List RepKey) : Automaton :=
  let (bits, contributors) := computeTransition G term keys
  let (dest, aut) := intern aut { terminal := term, bits } contributors
  recordTransition aut { terminal := term, op, child_reps := reps, dest }

/-- The choices that `enumerate_with` goes through, from position `d` on: one class is pinned at `fixed_dim`. -/
def choices (count : Nat → Nat) (fixed_dim fixed_rep : Nat) : Nat → Nat → List (List Nat)
  | 0, _ => [[]]
  | dims + 1, d =>
    (if d = fixed_dim then [fixed_rep] else List.range (count d)).flatMap fun r =>
      (choices count fixed_dim fixed_rep dims (d + 1)).map (r :: ·)

/-- The keys of classes, one for each position from `d` on. -/
def keysFrom (reps : Nat → List Rep) : Nat → List Nat → List RepKey
  | _, [] => []
  | d, r :: rs => ((reps d)[r]?.map Rep.key).getD { bits := 0#64, terminal := "" } :: keysFrom reps (d + 1) rs

/-- `enumerate_with`. -/
def enumerateWith (aut : Automaton) (op_idx fixed_dim fixed_rep : Nat) : Automaton :=
  match aut.ops[op_idx]? with
  | none => aut
  | some op =>
    let reps := aut.reps op_idx
    (choices (fun d => (reps d).length) fixed_dim fixed_rep op.dims.length 0).foldl (fun aut chosen =>
      evaluate G { aut with tuples_evaluated := aut.tuples_evaluated + 1 } op.term (some op_idx) chosen
        (keysFrom reps 0 chosen)) aut

/-- The state may stand at the position. -/
def enumerable (dim : OpDim) (key : StateKey) : Bool :=
  key.bits &&& dim.enumerated.accepted_nts != 0#64 || dim.enumerated.accepted_terms.contains key.terminal

/-- The class a state belongs to at a position. -/
def project (dim : OpDim) (key : StateKey) : RepKey where
  bits := key.bits &&& dim.matched.accepted_nts
  terminal := if dim.matched.accepted_terms.contains key.terminal then key.terminal else ""

def setReps (aut : Automaton) (op_idx d : Nat) (reps : List Rep) : Automaton :=
  { aut with reps := fun o e => if o = op_idx ∧ e = d then reps else aut.reps o e }

/-- The body of the inner loop: the popped state is put into its class at a position. -/
def visitDim (s : Nat) (key : StateKey) (op_idx : Nat) (aut : Automaton) (d : Nat) : Automaton :=
  match (aut.ops[op_idx]?.bind fun op => op.dims[d]?) with
  | none => aut
  | some dim =>
    if enumerable dim key then
      let reps := aut.reps op_idx d
      match reps.findIdx? fun rep => rep.key == project dim key with
      | some r =>
        setReps aut op_idx d (reps.modify r fun rep =>
          { rep with members := rep.members ++ [s]
                     any_covered_member := rep.any_covered_member || key.bits != 0#64 })
      | none =>
        let rep : Rep := { key := project dim key, members := [s], any_covered_member := key.bits != 0#64 }
        enumerateWith G (setReps aut op_idx d (reps ++ [rep])) op_idx d reps.length
    else aut

/-- The loop over the positions of an operator. -/
def visitOp (s : Nat) (key : StateKey) (aut : Automaton) (op_idx : Nat) : Automaton :=
  (List.range ((aut.ops[op_idx]?.map fun op => op.dims.length).getD 0)).foldl (visitDim G s key op_idx) aut

/-- One turn of the worklist. -/
def popTurn (aut : Automaton) : Automaton ⊕ Automaton :=
  match aut.worklist with
  | [] => .inr aut
  | s :: rest =>
    let aut := { aut with worklist := rest }
    match aut.states[s]? with
    | none => .inl aut
    | some st => .inl ((List.range aut.ops.length).foldl (visitOp G s st.key) aut)

/-- The states of the terminals that have a rule without operands. -/
def seeds (order : TerminalArities G) (aut : Automaton) : Automaton :=
  (order.pairs.filter fun p => p.2 = 0).foldl (fun aut p => evaluate G aut p.1 none [] []) aut

def emptyAutomaton (schema : Option AsdlSchema) (order : TerminalArities G) : Automaton where
  states := []
  ops := opTable G schema order
  reps := fun _ _ => []
  transitions := []
  missing_witnesses := []
  tuples_evaluated := 0
  worklist := []

/-- `build_automaton`; the second `none` is its `false`. -/
def buildAutomaton (schema : Option AsdlSchema) (order : TerminalArities G) (fuel : Nat) : Option (Option Automaton) :=
  if G.nonterms.length > maxNonterms then some none
  else (loop (fun aut => some (popTurn G aut)) fuel (seeds G order (emptyAutomaton G schema order))).map some

end Bbq.Burg.Completeness
