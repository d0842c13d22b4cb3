import Bbq.Peg.Cursor

/-!
# Generated parsers

What the code of `pegc/runtime/cpp_emit.cpp` (`cg_*`) and `pegc/backend/ParserEmitter.cpp` does when
it runs: `cgExpr` is the run of the statements `cg_expr` emits for an expression.

* Emitted statements fall through to the next one or return from the function or lambda they stand
  in (`Flow`). User code may do either.
* The run takes fuel, spent by rule calls and by rounds of loops. `none`: there was not enough.
* `Host` is the user's code: actions, resolver conditions, argument lists, what the generated
  functions do with parameters and captured spans, and helper methods. It may read the cursor but
  not move it, except that a helper consumes the characters it says it does.
* `peek()` is a `char`, which is signed.
-/

namespace Bbq.Peg

open Bbq.Lib

variable {σ : Type}

/-- How emitted statements are left. -/
inductive Flow
  | next
  | ret (value : Bool)
  deriving DecidableEq, Repr

/-- The value of a lambda or function whose statements are left so: they end in `return true`. -/
def Flow.value : Flow → Bool
  | .next => true
  | .ret value => value

/-- User code. All of it reads the position, the furthest position and the user's state. -/
structure Host (σ : Type) where
  action : String → Mark → Option Mark → σ → Flow × σ
  condition : String → Mark → Option Mark → σ → Bool × σ
  helper : String → String → Mark → Option Mark → σ → Bool × Nat × σ
  /-- Evaluates the arguments of a call and binds the parameters. -/
  enter : Rule → String → Mark → Option Mark → σ → σ
  /-- On the way out of a generated function, with the position at its entry and its value. -/
  leave : Rule → Mark → Bool → Mark → Option Mark → σ → σ

/-- A run of emitted statements. -/
abbrev Code (σ : Type) := State σ → Option (Flow × State σ)

/-- A call of a generated function. -/
abbrev Call (σ : Type) := Rule → String → State σ → Option (Bool × State σ)

/-! ## Statements -/

def fallThrough : Code σ := fun s => some (.next, s)

/-- `return false;` -/
def failing : Code σ := fun s => some (.ret false, s)

/-- One statement after another. -/
def andThen (first second : Code σ) : Code σ := fun s =>
  (first s).bind fun
    | (.next, s') => second s'
    | (.ret value, s') => some (.ret value, s')

/-- `[&]() -> bool { code return true; }()` -/
def lambda (code : Code σ) (s : State σ) : Option (Bool × State σ) :=
  (code s).map fun (f, s') => (f.value, s')

/-- `if (!(value)) return false;` -/
def require : Bool × State σ → Flow × State σ
  | (true, s) => (.next, s)
  | (false, s) => (.ret false, s)

variable (G : Grammar) (H : Host σ)

/-- `skip();`, which is emitted outside lex mode only. -/
def skipUnless (fuel : Nat) (lex : Bool) (s : State σ) : Option (State σ) :=
  if lex then some s else skip G fuel s

/-- `if (at_end() || !test(peek())) return false; advance();` -/
def consumeIf (test : UInt8 → Option Bool) : Code σ := fun s =>
  match s.pos.rest with
  | [] => some (.ret false, s)
  | c :: _ => (test c).map fun b => if b then (.next, s.advance) else (.ret false, s)

/-- `peek() < lo || peek() > hi`, negated. -/
def inRange (lo hi : Int) (c : UInt8) : Bool := lo ≤ c.toInt8.toInt && c.toInt8.toInt ≤ hi

/-- `cg_literal`. -/
def cgLiteral (fuel : Nat) (lex : Bool) (value : List UInt8) : Code σ := fun s =>
  (skipUnless G fuel lex s).map fun s' => require (matchStr value s')

/-- The method of that name, called by a rule call that names nothing declared. -/
def callHelper (name args : String) (s : State σ) : Bool × State σ :=
  let (value, n, host) := H.helper name args s.pos s.furthest s.host
  (value, { s.advances n with host := host })

/-- `cg_rule_call`. -/
def cgRuleCall (call : Call σ) (fuel : Nat) (lex : Bool) (name args : String) : Code σ :=
  match G.callee name with
  | .charset name => consumeIf (G.is name)
  | .rule r => fun s => (skipUnless G fuel lex s).bind fun s' => (call r args s').map require
  | .helper name => fun s => (skipUnless G fuel lex s).map fun s' => require (callHelper H name args s')

/-- `cg_action`. -/
def cgAction (code : String) : Code σ := fun s =>
  let (f, host) := H.action code s.pos s.furthest s.host
  some (f, { s with host := host })

/-- `cg_resolver`. -/
def cgResolver (code : String) (body : Code σ) : Code σ := fun s =>
  let (b, host) := H.condition code s.pos s.furthest s.host
  if b then body { s with host := host } else some (.next, { s with host := host })

/-- One round of the loop of `cg_star`. -/
def starRound (body : Code σ) (s : State σ) : Option (State σ ⊕ State σ) :=
  (lambda body s).map fun
    | (true, s') => .inl (s'.record (.again s.left s'.left))
    | (false, s') => .inr (s'.restore s.pos)

/-- The loop of `cg_star` and the tight one it writes for a charset. -/
def cgLoop (fuel : Nat) (expr : PegExpr) (body : Code σ) : Code σ := fun s =>
  let general := (loop (starRound body) fuel s).map fun s' => (Flow.next, s')
  match expr with
  | .charsetRef name =>
    if G.isCharsetName name then (spanWhile (G.is name) s).map fun s' => (.next, s') else general
  | _ => general

/-- `cg_optional`. -/
def cgOptional (body : Code σ) : Code σ := fun s =>
  (lambda body s).map fun
    | (true, s') => (.next, s')
    | (false, s') => (.next, s'.restore s.pos)

/-- `cg_and`, and `cg_not` with `wanted` false. -/
def cgPredicate (wanted : Bool) (body : Code σ) : Code σ := fun s =>
  (lambda body s).map fun (b, s') => require (b == wanted, s'.restore s.pos)

/-! ## Choice -/

/-- `first_literal`. -/
def firstLiteral : PegExpr → Option (List UInt8)
  | .literal value => some value
  | .sequence (.literal value :: _) => some value
  | _ => none

/-- `is_keyword_literal`. -/
def isKeywordLiteral (value : List UInt8) : Bool :=
  let letter (c : UInt8) : Bool :=
    ('a'.toUInt8 ≤ c && c ≤ 'z'.toUInt8) || ('A'.toUInt8 ≤ c && c ≤ 'Z'.toUInt8) || c == '_'.toUInt8
  match value with
  | [] => false
  | first :: _ => letter first && value.all fun c => letter c || ('0'.toUInt8 ≤ c && c ≤ '9'.toUInt8)

/-- `all_literal_starts`: the heads of all alternatives, when all can be dispatched on. -/
def literalStarts (lex : Bool) : List PegExpr → Option (List (List UInt8))
  | [] => some []
  | alt :: alts =>
    match firstLiteral alt with
    | none => none
    | some value =>
      if !lex && isKeywordLiteral value then none else (literalStarts lex alts).map (value :: ·)

/-- `prefix_disjoint`, of the heads. -/
def prefixDisjoint (heads : List (List UInt8)) : Bool :=
  heads.length ≤ 8 && decide (heads.Pairwise fun a b => ¬ a <+: b ∧ ¬ b <+: a)

/-- Whether `cg_choice` emits the dispatch on the heads. -/
def predictive (lex : Bool) (alternatives : List PegExpr) : Bool :=
  2 ≤ alternatives.length && (literalStarts lex alternatives).any prefixDisjoint

/-- A non-last alternative in its lambda, and what is tried when it fails. -/
def tryOr (first second : Code σ) : Code σ := fun s =>
  (lambda first s).bind fun
    | (true, s') => some (.next, s')
    | (false, s') => second (s'.restore s.pos)

/-! ## Expressions -/

variable (call : Call σ) (fuel : Nat) (lex : Bool)

mutual

/-- `cg_expr`. -/
def cgExpr : PegExpr → Code σ
  | .sequence elements => cgSeq elements
  | .choice alternatives =>
    if predictive lex alternatives then fun s =>
      (skipUnless G fuel lex s).bind (cgDispatch alternatives)
    else cgAlternatives alternatives
  | .star body => cgLoop G fuel body (cgExpr body)
  | .plus body => andThen (cgExpr body) (cgLoop G fuel body (cgExpr body))
  | .optional body => cgOptional (cgExpr body)
  | .and body => cgPredicate true (cgExpr body)
  | .not body => cgPredicate false (cgExpr body)
  | .literal value => cgLiteral G fuel lex value
  | .ruleCall name args => cgRuleCall G H call fuel lex name args
  | .action code => cgAction H code
  | .resolver code body => cgResolver H code (cgExpr body)
  | .group body => cgExpr body
  | .anyExpr => consumeIf fun _ => some true
  | .charRange lo hi => consumeIf fun c => some (inRange lo hi c)
  | .charsetRef name => consumeIf (G.is name)
  | .tokenRef _ => fallThrough

/-- `cg_seq`. -/
def cgSeq : List PegExpr → Code σ
  | [] => fallThrough
  | e :: es => andThen (cgExpr e) (cgSeq es)

/-- The general case of `cg_choice`. -/
def cgAlternatives : List PegExpr → Code σ
  | [] => fallThrough
  | [last] => cgExpr last
  | alt :: alt' :: alts => tryOr (cgExpr alt) (cgAlternatives (alt' :: alts))

/-- The dispatch of `cg_choice`, after its `skip()`. -/
def cgDispatch : List PegExpr → Code σ
  | [] => fallThrough
  | [last] => cgExpr last
  | alt :: alt' :: alts => fun s =>
    if peekAt ((firstLiteral alt).getD []) s then cgExpr alt s else cgDispatch (alt' :: alts) s

end

/-! ## The parser -/

/-- The generated function of a rule, with the rules that are running and where they were called. -/
def parseRule : Nat → List (Rule × Nat) → Call σ
  | 0, _, _, _, _ => none
  | fuel + 1, active, r, args, s =>
    (G.body r).bind fun body =>
      let entered := { s with host := H.enter r args s.pos s.furthest s.host }.record (.call active r s.left)
      (lambda (cgSeq G H (parseRule fuel ((r, s.left) :: active)) fuel body.lex body.code) entered).map
        fun (value, s') =>
          (value, { s' with host := H.leave r s.pos value s'.pos s'.furthest s'.host })

/-- `init(input, length)` on a fresh parser. -/
def init (input : List UInt8) (host : σ) : State σ :=
  { pos := ⟨input, 1, 1⟩, furthest := none, host := host, trace := [] }

/-- The arguments of the entry call: a local for every parameter of the start production. -/
def entryArgs (p : Production) : String := ", ".intercalate (p.params.map fun name => "_" ++ name)

/-- `parse()`. -/
def parse (fuel : Nat) (s : State σ) : Option (Bool × State σ) :=
  (skip G fuel s).bind fun s' =>
    match G.productions with
    | [] => some (true, s')
    | start :: _ => parseRule G H fuel [] (.production start.name) (entryArgs start) s'

end Bbq.Peg
