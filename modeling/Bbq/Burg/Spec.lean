import Mathlib.Data.List.Nodup
import Mathlib.Data.List.Range

/-!
# Tiling grammars

What burgc reads a `.burg` file into (`burgc/frontend`, `burg_ast`) and what `BurgGenerator::analyze`
makes of it (`burgc/src/generator.cpp`), without the rewrite section.

* A terminal stands for its opcode, so `BURG_<name>` is its name.
* Guards and actions are pieces of user code.
* Left out, as neither the labeller nor the analysis of rules reads it: opcode values, headers, members,
  source positions, rewrites and the facts of an e-graph.
-/

namespace Bbq.Burg

/-- `burg_ast::TreePattern`. -/
inductive TreePattern
  | mk (name : String) (children : List TreePattern)
  deriving Repr

namespace TreePattern

def name : TreePattern → String
  | .mk name _ => name

def children : TreePattern → List TreePattern
  | .mk _ children => children

/-- `is_leaf()`. -/
def isLeaf (p : TreePattern) : Bool := p.children.isEmpty

end TreePattern

/-- `burg_ast::Rule`. -/
structure Rule where
  nonterm : String
  pattern : TreePattern
  cost : Nat
  guard : String
  action : String
  rule_number : Nat
  deriving Repr

/-- `burg_ast::Spec`. An empty `start` is one that is not declared. -/
structure Spec where
  terminals : List String
  start : String
  entries : List String
  rules : List Rule
  /-- `classify_rules` numbers the rules from 1. -/
  numbered : rules.map Rule.rule_number = List.range' 1 rules.length

/-- `trim(code).empty()`. -/
def isBlank (code : String) : Bool := code.toList.all fun c => c == ' ' || c == '\t' || c == '\r' || c == '\n'

/-- Code without the blanks at either end (`trim_ws`). -/
def trimWs (code : String) : String :=
  let blank (c : Char) : Bool := c == ' ' || c == '\t' || c == '\r' || c == '\n'
  String.ofList ((code.toList.dropWhile blank).reverse.dropWhile blank).reverse

mutual

/-- `pattern_signature`, which is `pattern_string` too. -/
def patternSignature : TreePattern → String
  | .mk name [] => name
  | .mk name (child :: children) => name ++ "(" ++ patternSignature child ++ patternSignatures children ++ ")"

def patternSignatures : List TreePattern → String
  | [] => ""
  | p :: ps => ", " ++ patternSignature p ++ patternSignatures ps

end

namespace Spec

variable (G : Spec)

/-- `is_terminal`. -/
def isTerminal (name : String) : Bool := G.terminals.contains name

/-- A leaf that names no terminal: a pattern that is a nonterminal. -/
def isNonterm (p : TreePattern) : Bool := p.isLeaf && !G.isTerminal p.name

/-- `chain_rules`: their patterns are nonterminals. -/
def chainRules : List Rule := G.rules.filter fun r => G.isNonterm r.pattern

/-- The nonterminals in the order `collect_nonterms` sees them: left sides and sources of chain rules. -/
def seenNonterms : List String :=
  G.rules.foldl (fun seen r =>
    let seen := if r.nonterm ∈ seen then seen else seen ++ [r.nonterm]
    if G.isNonterm r.pattern ∧ r.pattern.name ∉ seen then seen ++ [r.pattern.name] else seen) []

/-- `nonterms`: the start nonterminal comes first. -/
def nonterms : List String :=
  if G.start ∈ G.seenNonterms then G.start :: G.seenNonterms.erase G.start else G.seenNonterms

/-- `start_nonterm`. -/
def startNonterm : String := if G.start = "" then G.seenNonterms.headD "" else G.start

/-- Some pattern over the terminal has operands. -/
def hasOperandRule (name : String) : Bool := G.rules.any fun r => r.pattern.name == name && !r.pattern.isLeaf

mutual

/-- Every nonterminal in the pattern has an index. -/
def indexed : TreePattern → Bool
  | .mk name children =>
    if children.isEmpty && !G.isTerminal name then G.nonterms.contains name else indexedAll children

def indexedAll : List TreePattern → Bool
  | [] => true
  | p :: ps => indexed p && indexedAll ps

end

/-- `check_duplicate_rules`: the rule says the same as an earlier one. -/
def duplicateRules : List Rule → List Rule → List String
  | _, [] => []
  | earlier, r :: rs =>
    match earlier.find? fun q => q.nonterm == r.nonterm && patternSignature q.pattern == patternSignature r.pattern
        && trimWs q.guard == trimWs r.guard with
    | some q =>
      ("duplicate rule " ++ toString r.rule_number ++ " (same as rule " ++ toString q.rule_number ++ "): " ++
        r.nonterm ++ ": " ++ patternSignature r.pattern ++
        (if isBlank r.guard then "" else " where (" ++ trimWs r.guard ++ ")")) :: duplicateRules earlier rs
    | none => duplicateRules (earlier ++ [r]) rs

/-- The errors of `analyze`. -/
def errors : List String :=
  ((G.terminals.zipIdx.filter fun (t, i) => t ∈ G.terminals.take i).map fun (t, _) => "duplicate terminal: " ++ t) ++
  G.rules.flatMap (fun r =>
    (if !r.pattern.isLeaf && !G.isTerminal r.pattern.name then
      ["rule " ++ toString r.rule_number ++ ": pattern root '" ++ r.pattern.name ++ "' is not a declared terminal"]
      else []) ++
    (r.pattern.children.filter fun c => !c.isLeaf && !G.isTerminal c.name).map fun c =>
      "rule " ++ toString r.rule_number ++ ": nested pattern operator '" ++ c.name ++ "' is not a terminal") ++
  ((G.entries.filter fun e => !G.nonterms.contains e).map fun e =>
    "ENTRY '" ++ e ++ "' is not a nonterminal defined by any rule") ++
  (if G.nonterms.isEmpty then ["no rules defined"] else []) ++
  duplicateRules [] G.rules

/-- burgc emits a matcher: no error, and every nonterminal it looks up has an index. -/
def accepted : Bool :=
  G.errors.isEmpty && G.nonterms.contains G.startNonterm && G.rules.all fun r => G.indexed r.pattern

/-! ## Rule numbers -/

variable {G}

theorem rule_number_mem {r : Rule} (h : r ∈ G.rules) : 1 ≤ r.rule_number ∧ r.rule_number ≤ G.rules.length := by
  have hmem : r.rule_number ∈ G.rules.map Rule.rule_number := List.mem_map.mpr ⟨r, h, rfl⟩
  rw [G.numbered, List.mem_range'_1] at hmem
  omega

theorem rule_number_inj {r r' : Rule} (h : r ∈ G.rules) (h' : r' ∈ G.rules) (he : r.rule_number = r'.rule_number) :
    r = r' := by
  have hnodup : (G.rules.map Rule.rule_number).Nodup := G.numbered ▸ List.nodup_range'
  exact List.inj_on_of_nodup_map hnodup h h' he

end Spec

/-- The code of a rule's `where` clause, asked about a node, with an empty one taken for none. -/
def Rule.holds {ν : Type} (eval : String → ν → Bool) (r : Rule) (node : ν) : Bool := isBlank r.guard || eval r.guard node

end Bbq.Burg
