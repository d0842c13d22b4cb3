import Mathlib.Data.List.Basic

/-!
# PEG grammars

The abstract syntax pegc reads a `.peg` file into (`pegc/frontend/GrammarAST.h`), as far as the
analysis and the C++ parser emitter look at it.

* Names and pieces of user code are strings. What a literal holds is bytes, as the parser compares
  bytes.
* `charsetRef` and `tokenRef` are kept although the front end builds `ruleCall` for every name.
* Left out, as neither the analysis nor the emitted control flow reads it: source positions, the
  headers, members and private helpers of the generated class, and the types of parameters.
-/

namespace Bbq.Peg

/-- `charset_expr`. -/
inductive CharsetExpr
  | range (lo hi : Int)
  | single (ch : Int)
  | union (left right : CharsetExpr)
  | diff (base minus : CharsetExpr)
  | nameRef (name : String)
  | any
  deriving DecidableEq, Repr

structure CharsetDef where
  name : String
  body : CharsetExpr
  deriving DecidableEq, Repr

/-- `peg_expr`. -/
inductive PegExpr
  | literal (value : List UInt8)
  | charRange (lo hi : Int)
  | charsetRef (name : String)
  | tokenRef (name : String)
  | ruleCall (name args : String)
  | sequence (elements : List PegExpr)
  | choice (alternatives : List PegExpr)
  | star (body : PegExpr)
  | plus (body : PegExpr)
  | optional (body : PegExpr)
  | and (body : PegExpr)
  | not (body : PegExpr)
  | group (body : PegExpr)
  | action (code : String)
  | resolver (code : String) (body : PegExpr)
  | anyExpr
  deriving Repr

structure TokenDef where
  name : String
  body : PegExpr
  deriving Repr

structure CommentDef where
  opener : List UInt8
  closer : List UInt8
  nested : Bool
  structured : Bool
  deriving DecidableEq, Repr

structure Production where
  name : String
  params : List String
  locals_code : Option String
  body : PegExpr
  deriving Repr

structure Grammar where
  charsets : List CharsetDef
  tokens : List TokenDef
  comments : List CommentDef
  ignore : Option CharsetExpr
  productions : List Production
  deriving Repr

namespace Grammar

variable (G : Grammar)

def isCharsetName (name : String) : Bool := G.charsets.any fun c => c.name == name

def isTokenName (name : String) : Bool := G.tokens.any fun t => t.name == name

def isProductionName (name : String) : Bool := G.productions.any fun p => p.name == name

end Grammar

/-! ## Charset predicates -/

/-- The low byte of a bound (`from & 0xFF`). -/
def lowByte (bound : Int) : Nat := (bound % 256).toNat

/-- The predicate `emit_charset_pred` writes for `expr`, asked about `c`. `named` answers for the
predicates it calls. `none`: some call does not come back. -/
def CharsetExpr.holds (named : String → Option Bool) (c : UInt8) : CharsetExpr → Option Bool
  | .range lo hi => some (lowByte lo ≤ c.toNat && c.toNat ≤ lowByte hi)
  | .single ch => some (c.toNat == lowByte ch)
  | .union left right => (left.holds named c).bind fun l => if l then some true else right.holds named c
  | .diff base minus =>
    (base.holds named c).bind fun b => if b then (minus.holds named c).map (!·) else some false
  | .any => some true
  | .nameRef name => named name

/-- `is_<name>(c)`, the definitions latest first. A definition sees those above it and itself, and
calling itself on the same character it does not come back. -/
def isCharset : List CharsetDef → String → UInt8 → Option Bool
  | [], _, _ => none
  | d :: above, name, c =>
    if d.name = name then
      d.body.holds (fun called => if called = d.name then none else isCharset above called c) c
    else isCharset above name c

/-- `is_<name>(c)` in the generated parser. -/
def Grammar.is (G : Grammar) (name : String) (c : UInt8) : Option Bool := isCharset G.charsets.reverse name c

/-- The function given to `set_whitespace`, and that no character is skipped when there is none. -/
def Grammar.ignores (G : Grammar) (c : UInt8) : Option Bool :=
  match G.ignore with
  | none => some false
  | some expr => expr.holds (fun name => G.is name c) c

/-! ## Rules -/

/-- The functions of a generated parser that a rule call enters: `parse_<name>` and `<name>`. -/
inductive Rule
  | production (name : String)
  | token (name : String)
  deriving DecidableEq, Repr

/-- What a rule call calls (`cg_rule_call`): names of charsets come first, then productions. Any
other name is taken for a method of the class. -/
inductive Callee
  | charset (name : String)
  | rule (r : Rule)
  | helper (name : String)
  deriving DecidableEq, Repr

def Grammar.callee (G : Grammar) (name : String) : Callee :=
  if G.isCharsetName name then .charset name
  else if G.isProductionName name then .rule (.production name)
  else if G.isTokenName name then .rule (.token name)
  else .helper name

/-- The statements of a generated function, and whether they are emitted in lex mode. -/
structure Body where
  lex : Bool
  code : List PegExpr

/-- `emit_production_impl` and `emit_token_impl`: the locals of a production, when there are any,
are user code before its body. -/
def Grammar.body (G : Grammar) : Rule → Option Body
  | .production name => (G.productions.find? fun p => p.name == name).map fun p =>
      { lex := false
        code := ((p.locals_code.toList.filter (· ≠ "")).map PegExpr.action) ++ [p.body] }
  | .token name => (G.tokens.find? fun t => t.name == name).map fun t => { lex := true, code := [t.body] }

end Bbq.Peg
