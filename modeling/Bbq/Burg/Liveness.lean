import Bbq.Burg.Automaton

/-!
# Dead rules

`compute_demand` and `report_dead_rules` of `burgc/src/completeness.cpp`: which nonterminals are asked for at which states
when something is derived from the start nonterminal or an entry, and the rules that contribute to none of them.

* The demand goes down the transitions, pass after pass, until a pass adds nothing. The passes take fuel.
* A map of contributors is gone through in the order in which they came. What the passes end with does not depend on it.
-/

namespace Bbq.Burg.Completeness

open Bbq.Lib

variable (G : Spec) (aut : Automaton)

/-- What `chain_demand_close` goes through. -/
structure Asking where
  demanded : NontermBits
  changed : Bool

/-- The body of its inner loop. -/
def demandStep (d : Asking) (cr : Rule) : Asking :=
  match ntIndex G cr.pattern.name, ntIndex G cr.nonterm with
  | some from_idx, some to_idx =>
    if has d.demanded to_idx && !has d.demanded from_idx then { demanded := d.demanded ||| bit from_idx, changed := true }
    else d
  | _, _ => d

/-- `chain_demand_close`. -/
def chainDemandClose (demanded : NontermBits) : NontermBits :=
  (passes Asking.changed (demandStep G) (fun d => { d with changed := false }) G.chainRules (maxNonterms + 1)
    { demanded, changed := true }).demanded

/-- The start nonterminal and the declared entries. -/
def goalIndices : List Nat :=
  (ntIndex G G.startNonterm).elim [] fun start => start :: (G.entries.filterMap (ntIndex G)).filter (· ≠ start)

/-- The goals that a state is a candidate root for. -/
def seedDemand (st : State) : NontermBits :=
  let demanded := (goalIndices G).foldl (fun d g => if has st.key.bits g then d ||| bit g else d) 0#64
  if demanded ≠ 0#64 then chainDemandClose G demanded else demanded

/-- What a pass goes through. -/
structure Demanding where
  demanded : List NontermBits
  changed : Bool

/-- A state of a class is asked for a nonterminal. -/
def askMember (new_demand : NontermBits) (x : Demanding) (csid : Nat) : Demanding :=
  let before := x.demanded.getD csid 0#64
  let after := chainDemandClose G (before ||| new_demand)
  if after ≠ before then { demanded := x.demanded.set csid after, changed := true } else x

/-- All states of the class at an operand are. -/
def askOperand (t : TransitionRecord) (x : Demanding) (operand : TreePattern × Nat) : Demanding :=
  if operand.1.isLeaf && !G.isTerminal operand.1.name then
    match ntIndex G operand.1.name, t.op with
    | some nt, some op =>
      let rep := (aut.reps op operand.2)[t.child_reps.getD operand.2 0]?
      ((rep.map Rep.members).getD []).foldl (askMember G (bit nt)) x
    | _, _ => x
  else x

/-- The operands of a rule that contributes to what is asked for. -/
def askRule (t : TransitionRecord) (dest_demand : NontermBits) (x : Demanding) (contributor : Nat × Nat) : Demanding :=
  if has dest_demand contributor.1 then
    match G.rules.find? fun r => r.rule_number == contributor.2 with
    | none => x
    | some r =>
      if G.isNonterm r.pattern then x
      else if r.pattern.children.length ≠ t.child_reps.length then x
      else r.pattern.children.zipIdx.foldl (askOperand G aut t) x
  else x

/-- The body of the loop over the transitions. -/
def askTransition (x : Demanding) (t : TransitionRecord) : Demanding :=
  let dest_demand := x.demanded.getD t.dest 0#64
  if dest_demand = 0#64 then x
  else ((aut.states[t.dest]?.map State.contributors).getD []).foldl (askRule G aut t dest_demand) x

/-- `compute_demand`. -/
def computeDemand (fuel : Nat) : Option (List NontermBits) :=
  (loop (fun x =>
    let x := aut.transitions.foldl (askTransition G aut) { x with changed := false }
    some (if x.changed then .inl x else .inr x)) fuel
    ({ demanded := aut.states.map (seedDemand G), changed := true } : Demanding)).map Demanding.demanded

/-- The numbers of the rules that contribute to something asked for. -/
def liveRules (demanded : List NontermBits) : List Nat :=
  (aut.states.zip demanded).flatMap fun (st, d) =>
    if d = 0#64 then [] else (st.contributors.filter fun c => has d c.1).map Prod.snd

/-- `report_dead_rules`: the rules it reports. -/
def deadRules (demanded : List NontermBits) : List Rule :=
  G.rules.filter fun r => !(liveRules aut demanded).contains r.rule_number

/-- What it says of each. -/
def deadWarning (r : Rule) : String :=
  "rule " ++ toString r.rule_number ++ " is dead (no demand for " ++ r.nonterm ++ " from a " ++ G.startNonterm ++
    "-rooted derivation): " ++ r.nonterm ++ ": " ++ patternSignature r.pattern ++
    (if r.guard = "" then "" else " where (...)")

end Bbq.Burg.Completeness
