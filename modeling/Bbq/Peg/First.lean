import Bbq.Peg.Analysis

/-!
# FIRST sets

Model of the part of `pegc/frontend/PegAnalysis.cpp` that computes what a production can start with (`nullable_of`,
`first_of`, `compute_first_sets`, 258-383) and warns by it (`detect_always_failing`, `detect_useless_predicates`,
766-823).

* The productions are a `std::map`, in the order of their names; an entry keeps its node.
* The worklist is a queue without duplicates. The loop takes fuel, one for an item.
-/

namespace Bbq.Peg

/-- `FirstElement`. -/
inductive FirstElement
  | literal (value : List UInt8)
  | charset (name : String)
  | token (name : String)
  | any
  | epsilon
  deriving DecidableEq, Repr

/-- `ProductionInfo`, as far as FIRST is concerned. -/
structure ProductionInfo where
  node : Production
  firstSet : List FirstElement
  nullable : Bool
  leftRecursive : Bool

/-- `result_.productions`. -/
abbrev Infos := List ProductionInfo

namespace Infos

def named (ps : Infos) (name : String) : Option ProductionInfo := ps.find? fun i => i.node.name == name

/-- The entry's sets are replaced. -/
def update (ps : Infos) (name : String) (first : List FirstElement) : Infos :=
  ps.map fun i =>
    if i.node.name = name then { i with firstSet := first, nullable := first.contains .epsilon } else i

end Infos

/-! ## Sets -/

/-- `first_set_union`. -/
def firstSetUnion (dest : List FirstElement) (includeEpsilon : Bool) : List FirstElement → List FirstElement
  | [] => dest
  | e :: src =>
    if !includeEpsilon && e == .epsilon then firstSetUnion dest includeEpsilon src
    else firstSetUnion (if dest.contains e then dest else dest ++ [e]) includeEpsilon src

/-- `first_set_eq`. -/
def firstSetEq (a b : List FirstElement) : Bool := a.length == b.length && a.all b.contains

/-- And with `ε`, if it is not there. -/
def withEpsilon (s : List FirstElement) : List FirstElement := if s.contains .epsilon then s else s ++ [.epsilon]

variable (G : Grammar) (ps : Infos)

mutual

/-- `nullable_of`. -/
def nullableOf : PegExpr → Bool
  | .literal _ | .charsetRef _ | .tokenRef _ | .anyExpr => false
  | .ruleCall name _ =>
    if G.isCharsetName name || G.isTokenName name then false else ((ps.named name).map (·.nullable)).getD false
  | .sequence elements => nullableAll elements
  | .choice alternatives => nullableAny alternatives
  | .star _ | .optional _ => true
  | .plus body | .group body | .resolver _ body => nullableOf body
  | .action _ | .and _ | .not _ | .charRange _ _ => true

def nullableAll : List PegExpr → Bool
  | [] => true
  | e :: es => nullableOf e && nullableAll es

def nullableAny : List PegExpr → Bool
  | [] => false
  | e :: es => nullableOf e || nullableAny es

end

mutual

/-- `first_of`. -/
def firstOf : PegExpr → List FirstElement
  | .literal value => [.literal value]
  | .ruleCall name _ =>
    if G.isCharsetName name then [.charset name]
    else if G.isTokenName name then [.token name]
    else ((ps.named name).map (·.firstSet)).getD []
  | .sequence elements => firstSeq [] elements
  | .choice alternatives => firstChoice [] alternatives
  | .star body | .optional body => withEpsilon (firstOf body)
  | .plus body | .group body | .resolver _ body => firstOf body
  | .anyExpr => [.any]
  | .charsetRef name => [.charset name]
  | .tokenRef name => [.token name]
  | .action _ | .and _ | .not _ | .charRange _ _ => [.epsilon]

/-- The loop over a sequence: up to the first element that is not nullable. -/
def firstSeq (result : List FirstElement) : List PegExpr → List FirstElement
  | [] => result ++ [.epsilon]
  | e :: es =>
    let result := firstSetUnion result false (firstOf e)
    if nullableOf G ps e then firstSeq result es else result

def firstChoice (result : List FirstElement) : List PegExpr → List FirstElement
  | [] => result
  | e :: es => firstChoice (firstSetUnion result true (firstOf e)) es

end

/-! ## The worklist -/

/-- `collect_calls`. -/
def calls (p : Production) : List String :=
  (calledNames p.body).filter fun name => !G.isCharsetName name && !G.isTokenName name

/-- `callers_[name]`. -/
def callers (name : String) : List String :=
  (ps.filter fun i => (calls G i.node).contains name).map fun i => i.node.name

/-- `Worklist::push`. -/
def push (queue : List String) (name : String) : List String := if queue.contains name then queue else queue ++ [name]

/-- The loop of `compute_first_sets`. -/
def firstSetsFrom : Nat → List String → Infos → Option Infos
  | _, [], ps => some ps
  | 0, _ :: _, _ => none
  | fuel + 1, name :: queue, ps =>
    match ps.named name with
    | none => firstSetsFrom fuel queue ps
    | some info =>
      let first := firstOf G ps info.node.body
      if info.leftRecursive || firstSetEq first info.firstSet then firstSetsFrom fuel queue ps
      else firstSetsFrom fuel ((callers G ps name).foldl push queue) (ps.update name first)

/-- The entries before the passes over FIRST. -/
def initialInfos : Infos :=
  let map := (collectProductions G.productions [] []).1
  map.map fun p =>
    { node := p, firstSet := [], nullable := false
      leftRecursive := (hasLeftPath map p.name (map.length + 1) p.name []).1 }

/-- `compute_first_sets`. -/
def computeFirstSets (fuel : Nat) : Option Infos :=
  firstSetsFrom G fuel ((initialInfos G).map fun i => i.node.name) (initialInfos G)

/-! ## Warnings -/

inductive Warning
  | neverMatches (production : String)
  | andSucceeds (owner : String) (body : PegExpr)
  | notFails (owner : String) (body : PegExpr)
  | notSucceeds (owner : String) (body : PegExpr)

def Warning.text : Warning → String
  | .neverMatches name => "production " ++ name ++ " has empty FIRST and is not nullable; it can never match"
  | .andSucceeds owner _ => "predicate &(...) in " ++ owner ++ " always succeeds (body matches empty)"
  | .notFails owner _ => "predicate !(...) in " ++ owner ++ " always fails (body matches empty)"
  | .notSucceeds owner _ => "predicate !(...) in " ++ owner ++ " always succeeds (body never matches)"

/-- `detect_always_failing`. -/
def detectAlwaysFailing : List Warning :=
  (ps.filter fun i => !i.leftRecursive && i.firstSet.isEmpty && !i.nullable).map fun i => .neverMatches i.node.name

/-- `first_set_without_epsilon`. -/
def withoutEpsilon (s : List FirstElement) : List FirstElement := s.filter (· ≠ .epsilon)

variable (owner : String)

mutual

/-- The walk of `detect_useless_predicates` over an expression. -/
def uselessPredicates : PegExpr → List Warning
  | .and body => (if nullableOf G ps body then [.andSucceeds owner body] else []) ++ uselessPredicates body
  | .not body =>
    (if nullableOf G ps body then [.notFails owner body]
      else if (withoutEpsilon (firstOf G ps body)).isEmpty then [.notSucceeds owner body] else []) ++
      uselessPredicates body
  | .sequence elements => uselessPredicatesAll elements
  | .choice alternatives => uselessPredicatesAll alternatives
  | .star body | .plus body | .optional body | .group body | .resolver _ body => uselessPredicates body
  | .literal _ | .charRange _ _ | .charsetRef _ | .tokenRef _ | .ruleCall _ _ | .action _ | .anyExpr => []

def uselessPredicatesAll : List PegExpr → List Warning
  | [] => []
  | e :: es => uselessPredicates e ++ uselessPredicatesAll es

end

/-- The warnings by FIRST sets. -/
def firstWarnings : List Warning :=
  detectAlwaysFailing ps ++ G.productions.flatMap fun p => uselessPredicates G ps p.name p.body

end Bbq.Peg
