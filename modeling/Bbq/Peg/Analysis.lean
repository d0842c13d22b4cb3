import Bbq.Peg.Grammar

/-!
# What the analysis rejects

Model of the parts of `pegc/frontend/PegAnalysis.cpp` that report errors: `collect_productions`, the
check of identifiers in `analyze`, and `detect_left_recursion` with `first_element` and
`has_left_path`. Everything else there (FIRST and FOLLOW sets, masking, reachability) only warns.

* The productions are a `std::map`, so they are walked in the order of their names.
* `hasLeftPath` takes fuel for the depth of its calls. Every call that looks at a body adds a name to
  `visited`, so the number of productions and one bounds the depth.
* Bodies of tokens are looked at by none of these.
-/

namespace Bbq.Peg

/-- Insertion into the map of productions. -/
def insertByName (p : Production) : List Production → List Production
  | [] => [p]
  | q :: qs => if p.name < q.name then p :: q :: qs else q :: insertByName p qs

/-- `collect_productions`: the map and the errors. -/
def collectProductions : List Production → List Production → List String → List Production × List String
  | [], map, errors => (map, errors)
  | p :: ps, map, errors =>
    if map.any (fun q => q.name == p.name) then
      collectProductions ps map (errors ++ ["duplicate production: " ++ p.name])
    else collectProductions ps (insertByName p map) errors

mutual

/-- The names called in an expression, in the order of the text. -/
def calledNames : PegExpr → List String
  | .ruleCall name _ => [name]
  | .sequence elements => calledNamesAll elements
  | .choice alternatives => calledNamesAll alternatives
  | .star body | .plus body | .optional body | .and body | .not body | .group body => calledNames body
  | .resolver _ body => calledNames body
  | .literal _ | .charRange _ _ | .charsetRef _ | .tokenRef _ | .action _ | .anyExpr => []

def calledNamesAll : List PegExpr → List String
  | [] => []
  | e :: es => calledNames e ++ calledNamesAll es

end

/-- The identifier check of one production. -/
def undeclared (G : Grammar) (p : Production) : List String :=
  ((calledNames p.body).filter fun name =>
      !G.isCharsetName name && !G.isTokenName name && !G.isProductionName name).map fun name =>
    "undeclared identifier '" ++ name ++ "' in production " ++ p.name

/-! ## Left recursion -/

/-- `first_element`. `none` for a choice. -/
def firstElement : PegExpr → Option PegExpr
  | .sequence (e :: _) => firstElement e
  | .choice _ => none
  | .group body => firstElement body
  | expr => some expr

/-- The expressions `has_left_path` takes for leftmost in a body. -/
def leftmost : PegExpr → List PegExpr
  | .choice alternatives => alternatives.filterMap firstElement
  | body => (firstElement body).toList

/-- The loop of `has_left_path` over the leftmost expressions. `follow` is the call to itself. -/
def anyLeftPath (target : String) (follow : String → List String → Bool × List String) :
    List PegExpr → List String → Bool × List String
  | [], visited => (false, visited)
  | .ruleCall name _ :: es, visited =>
    if name = target then (true, visited)
    else
      match follow name visited with
      | (true, visited') => (true, visited')
      | (false, visited') => anyLeftPath target follow es visited'
  | _ :: es, visited => anyLeftPath target follow es visited

/-- `has_left_path`, with the names visited so far. -/
def hasLeftPath (map : List Production) (target : String) : Nat → String → List String → Bool × List String
  | 0, _, visited => (false, visited)
  | fuel + 1, source, visited =>
    match map.find? fun p => p.name == source with
    | none => (false, visited)
    | some p =>
      if source ∈ visited then (false, visited)
      else anyLeftPath target (hasLeftPath map target fuel) (leftmost p.body) (source :: visited)

/-- `detect_left_recursion`. -/
def detectLeftRecursion (map : List Production) : List String :=
  (map.filter fun p => (hasLeftPath map p.name (map.length + 1) p.name []).1).map fun p =>
    "left recursion detected in production: " ++ p.name

/-- The errors of `analyze`. -/
def analyze (G : Grammar) : List String :=
  let (map, errors) := collectProductions G.productions [] []
  errors ++ map.flatMap (undeclared G) ++ detectLeftRecursion map

/-- `AnalysisResult::ok()`. -/
def Grammar.ok (G : Grammar) : Bool := (analyze G).isEmpty

end Bbq.Peg
