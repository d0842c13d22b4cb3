import Bbq.Zcow.Node

/-!
# Grammars

The abstract syntax of a `.bbq` specification (`grammar/BBQ.asdl`), as far as the CEK backend
reads it.

* The repeated parts of a type expression (fields, variants, cases) are list types of their own,
  so that a function on type expressions recurses on them structurally.
* `(A | B)` alternatives and unions compile alike (`compile_choice`); both are variants here, the
  former under the names `alt_0`, `alt_1`, … (`compile_alternatives`, `alternatives`).
* A bit field has at least one entry and its widths add up to its container
  (`Sema::validate_type`).
* Left out, as nothing in the CEK backend reads it: source positions, code blocks, an extern's
  write function and C++ type, a compute's result type, the cross-rule resolution of a simple
  reference other than its path.
-/

namespace Bbq

inductive Width
  | w8 | w16 | w32 | w64
  deriving DecidableEq, Repr

inductive Signedness
  | unsigned | signed
  deriving DecidableEq, Repr

inductive Endianness
  | little | big | default
  deriving DecidableEq, Repr

/-- `encoding`: a fixed-width field, or a varint carried in `Width`. -/
inductive Encoding
  | fixed | uleb | sleb
  deriving DecidableEq, Repr

inductive PrimitiveKind
  | integer (width : Width) (sign : Signedness) (endian : Endianness) (encoding : Encoding)
  | float (width : Width) (endian : Endianness)
  | bytes
  | string
  | bool
  deriving DecidableEq, Repr

/-! ## Expressions -/

inductive BinOp
  | add | sub | mul | div | mod
  | bitAnd | bitOr | bitXor | shl | shr
  | and | or
  | eq | ne | lt | le | gt | ge
  deriving DecidableEq, Repr

/-- `unaryop`; no rule compiles `Abs`. -/
inductive UnaryOp
  | neg | bitNot | not
  deriving DecidableEq, Repr

/-- `@name`: what the parser provides. `Sema` refuses any other name. -/
inductive Builtin
  | pos | start | stop | remaining | index | buffer
  deriving DecidableEq, Repr

mutual

inductive Expr
  | binOp (left : Expr) (op : BinOp) (right : Expr)
  | unaryOp (op : UnaryOp) (operand : Expr)
  | ternary (cond thenBranch elseBranch : Expr)
  | intLit (value : Int64)
  | floatLit (value : Double)
  | strLit (value : String)
  | boolLit (value : Bool)
  | ref (path : RefPath)
  | call (func : String) (args : Args)
  | endianLit (value : Endianness)
  | eoi
  | builtin (name : Builtin)

/-- `ref_path`: `a`, `a.b`, `a[i]`. -/
inductive RefPath
  | simple (name : String) (resolvedPath : Option String)
  | fieldAcc (base : RefPath) (field : String)
  | indexAcc (base : RefPath) (index : Expr)

/-- The arguments of a call. -/
inductive Args
  | nil
  | cons (arg : Expr) (rest : Args)

end

/-! ## Type expressions -/

inductive Interval
  | startEnd (start stop : Expr)
  | length (length : Expr)

inductive CaseValue
  | int (value : Int64)
  | range (lo hi : Int64)
  | str (value : String)
  | ident (name : String)
  | ref (path : List String)

structure BitfieldEntry where
  name : String
  sign : Signedness
  width : Nat
  constraint : Option Expr

mutual

inductive TypeExpr
  | struct (fields : Fields) (constraint : Option Expr)
  | union (variants : Variants)
  | array (element : TypeExpr) (spec : ArraySpec) (constraint : Option Expr)
      (interval elementInterval : Option Interval) (resync : Bool)
  | optional (element : TypeExpr) (constraint : Option Expr) (interval : Option Interval)
  | switch (discriminator : Expr) (cases : Cases) (default : SwitchDefault)
  | compute (expression : Expr)
  | primitive (kind : PrimitiveKind) (constraint : Option Expr) (interval : Option Interval)
  | ruleRef (name : String) (constraint : Option Expr) (interval : Option Interval)
  | external (funcName : String) (constraint : Option Expr) (interval : Option Interval)
  | bitfield (container : PrimitiveKind) (first : BitfieldEntry) (rest : List BitfieldEntry)
  | endianSwitch (endianExpr : Expr)

inductive Fields
  | nil
  | cons (name : String) (body : TypeExpr) (constraint : Option Expr)
      (interval : Option Interval) (scopesRest : Bool) (rest : Fields)

inductive Variants
  | nil
  | cons (name : String) (body : TypeExpr) (constraint : Option Expr)
      (interval : Option Interval) (rest : Variants)

inductive Cases
  | nil
  | cons (value : CaseValue) (target : TypeExpr) (interval : Option Interval) (rest : Cases)

/-- `switch_default?`: absent, `reject`, or a type to parse. -/
inductive SwitchDefault
  | absent
  | reject
  | target (target : TypeExpr) (interval : Option Interval)

inductive ArraySpec
  | fixedCount (count : Expr)
  | sepTerm (sep : Separator) (term : Terminator)

inductive Separator
  | none
  | type (sepType : TypeExpr)

inductive Terminator
  | eof
  | count (count : Expr)
  | until (condition : Expr)
  | type (termType : TypeExpr)

end

/-- Induction on the alternatives, without what they hold. -/
theorem Variants.induct {motive : Variants → Prop} (nil : motive .nil)
    (cons : ∀ name body constraint interval rest, motive rest → motive (.cons name body constraint interval rest)) :
    ∀ vs, motive vs
  | .nil => nil
  | .cons name body constraint interval rest => cons name body constraint interval rest (induct nil cons rest)

/-- Whether some field is marked `@rest`. -/
def Fields.hasRest : Fields → Bool
  | .nil => false
  | .cons _ _ _ _ scopesRest rest => scopesRest || hasRest rest

/-- The variants `compile_alternatives` makes of `(A | B | …)`. -/
def alternativesFrom (i : Nat) : List TypeExpr → Variants
  | [] => .nil
  | t :: ts => .cons s!"alt_{i}" t none none (alternativesFrom (i + 1) ts)

/-- `Alternatives(alts)`: an anonymous tagged union. -/
def TypeExpr.alternatives (alts : List TypeExpr) : TypeExpr := .union (alternativesFrom 0 alts)

structure Rule where
  name : String
  body : TypeExpr

/-- `grammar`, with the default the endian directive sets. -/
structure Grammar where
  defaultLittleEndian : Bool
  rules : List Rule

end Bbq
