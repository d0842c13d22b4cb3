import Bbq.Bytes
import Bbq.Grammar

/-!
# Expressions of the CEK machine

The expression konts (`backends/cek/Machine.cpp:256-987`) evaluate by pushing their operands and
an `Apply` kont; they change neither the cursor nor the capture tree nor any frame. `eval` is
that evaluation run to its end: right operand before left, `&&` and `||` left first and short,
call arguments left to right, the first `fail()` with its text.

What an expression reads of the machine is a `View`. Of the capture tree it reads names, spans,
types, computed values and children; `Capture` is a node with just these (and the encoding and bit
run that `Capture` konts copy), so that no expression can depend on a variant tag.

`int64_t` is `Int64` (a signed overflow wraps, a shift count is taken modulo 64), `double` is
`Double`; a null `Value*` is `none`.
-/

namespace Bbq

namespace Double

def toFloat (d : Double) : Float := Float.ofBits d.bits

def ofFloat (f : Float) : Double := ⟨f.toBits⟩

def ofInt64 (i : Int64) : Double := ofFloat i.toFloat

end Double

namespace Cek

/-- What a carrier or a recorded leaf says of itself. -/
structure Leaf where
  name : Option String
  type : CaptureType
  startOffset : Nat
  endOffset : Nat
  computedValue : Option ComputedValue
  enc : Zcow.Enc
  bits : Zcow.BitsAt
  deriving DecidableEq, Repr

/-- A capture as expressions see it. -/
inductive Capture
  | mk (leaf : Leaf) (kids : List Capture)

namespace Capture

def leaf : Capture → Leaf
  | mk l _ => l

def kids : Capture → List Capture
  | mk _ ks => ks

end Capture

/-- `Value`: the tagged scalars, and a reference to a capture. -/
inductive Value
  | int (v : Int64)
  | float (v : Double)
  | string (v : String)
  | bool (v : Bool)
  | capture (c : Capture)

/-- `Binding`: a name bound in the environment. -/
structure Binding where
  name : Option String
  value : Option Value
  startOffset : Nat
  endOffset : Nat
  type : CaptureType

/-- `Environment`: innermost binding first. -/
abbrev Env := List Binding

/-- An open capture scope; the last of a list of them stands for the top level. -/
structure OpenScope where
  leaf : Leaf
  kids : List Capture

/-- What the expression konts read of the machine. -/
structure View where
  input : List UInt8
  pos : Nat
  effectiveEnd : Nat
  env : Env
  /-- Open scopes, innermost first. -/
  scopes : List OpenScope
  /-- `counter` of the innermost `LoopFrame`. -/
  counter : Option Int64

abbrev Eval (α : Type) := Except String α

/-! ## Values -/

/-- `lower_computed`: anything but a scalar becomes the integer 0. -/
def lowerComputed : Option Value → ComputedValue
  | some (.int v) => .int v.toInt
  | some (.float v) => .float v
  | some (.bool v) => .bool v
  | some (.string v) => .string v
  | some (.capture _) | none => .int 0

/-- `lift_computed`. -/
def liftComputed : Option ComputedValue → Option Value
  | none => none
  | some (.int i) => some (.int (.ofInt i))
  | some (.float f) => some (.float f)
  | some (.bool b) => some (.bool b)
  | some (.string s) => some (.string s)

/-- `coerce_to_bool`; `none` where `has_value` is false. -/
def coerceToBool : Option Value → Option Bool
  | some (.bool b) => some b
  | some (.int v) => some (v != 0)
  | _ => none

/-- `as_double` of a value `is_num` accepts. -/
def asDouble : Value → Option Double
  | .int v => some (.ofInt64 v)
  | .float v => some v
  | _ => none

/-- `std::strcmp`, as a three-way order on the bytes. -/
def strcmp (a b : String) : Ordering := compare a b

def opToken : BinOp → String
  | .add => "+" | .sub => "-" | .mul => "*" | .div => "/" | .mod => "%"
  | .bitAnd => "&" | .bitOr => "|" | .bitXor => "^" | .shl => "<<" | .shr => ">>"
  | .and => "&&" | .or => "||"
  | .eq => "==" | .ne => "!=" | .lt => "<" | .le => "<=" | .gt => ">" | .ge => ">="

def typeError {α : Type} (op : BinOp) : Eval α := .error ("type error: " ++ opToken op)

/-! ## Operators -/

def intArith : BinOp → Int64 → Int64 → Int64
  | .add, a, b => a + b
  | .sub, a, b => a - b
  | .mul, a, b => a * b
  | .div, a, b => a / b
  | .mod, a, b => a % b
  | .bitAnd, a, b => a &&& b
  | .bitOr, a, b => a ||| b
  | .bitXor, a, b => a ^^^ b
  | .shl, a, b => a <<< b
  | .shr, a, b => a >>> b
  | _, a, _ => a

def floatArith : BinOp → Double → Double → Double
  | .add, a, b => .ofFloat (a.toFloat + b.toFloat)
  | .sub, a, b => .ofFloat (a.toFloat - b.toFloat)
  | .mul, a, b => .ofFloat (a.toFloat * b.toFloat)
  | .div, a, b => .ofFloat (a.toFloat / b.toFloat)
  | _, a, _ => a

/-- `+ - * /`: on two integers or, one of them a float, on doubles. -/
def applyArith (op : BinOp) (lhs rhs : Option Value) : Eval (Option Value) :=
  match lhs, rhs with
  | some (.int a), some (.int b) =>
    if op = .div ∧ b = 0 then .error "division by zero" else .ok (some (.int (intArith op a b)))
  | some l, some r =>
    match asDouble l, asDouble r with
    | some a, some b => .ok (some (.float (floatArith op a b)))
    | _, _ => typeError op
  | _, _ => typeError op

/-- `%` and the bitwise operators: integers only. -/
def applyBitwise (op : BinOp) (lhs rhs : Option Value) : Eval (Option Value) :=
  match lhs, rhs with
  | some (.int a), some (.int b) =>
    if op = .mod ∧ b = 0 then .error "division by zero" else .ok (some (.int (intArith op a b)))
  | _, _ => typeError op

/-- `==` of two values of one tag, or of two numbers; false across tags. A capture reference is
fresh each time it is made, so two are never one pointer. -/
def valueEq : Value → Value → Bool
  | .int a, .int b => a == b
  | .float a, .float b => a.toFloat == b.toFloat
  | .string a, .string b => a == b
  | .bool a, .bool b => a == b
  | .int a, .float b => (Double.ofInt64 a).toFloat == b.toFloat
  | .float a, .int b => a.toFloat == (Double.ofInt64 b).toFloat
  | _, _ => false

def applyEquality (op : BinOp) (lhs rhs : Option Value) : Eval (Option Value) :=
  match lhs, rhs with
  | some l, some r => .ok (some (.bool (valueEq l r == decide (op = .eq))))
  | _, _ => typeError op

def orderHolds (op : BinOp) : Ordering → Bool
  | .lt => op = .lt ∨ op = .le
  | .eq => op = .le ∨ op = .ge
  | .gt => op = .gt ∨ op = .ge

def floatOrderHolds (op : BinOp) (a b : Double) : Bool :=
  match op with
  | .lt => a.toFloat < b.toFloat
  | .le => a.toFloat ≤ b.toFloat
  | .gt => a.toFloat > b.toFloat
  | .ge => a.toFloat ≥ b.toFloat
  | _ => false

/-- `< <= > >=`: integers, strings, or numbers as doubles. -/
def applyOrdered (op : BinOp) (lhs rhs : Option Value) : Eval (Option Value) :=
  match lhs, rhs with
  | some (.int a), some (.int b) => .ok (some (.bool (orderHolds op (compare a.toInt b.toInt))))
  | some (.string a), some (.string b) => .ok (some (.bool (orderHolds op (strcmp a b))))
  | some l, some r =>
    match asDouble l, asDouble r with
    | some a, some b => .ok (some (.bool (floatOrderHolds op a b)))
    | _, _ => typeError op
  | _, _ => typeError op

def applyBinOp (op : BinOp) (lhs rhs : Option Value) : Eval (Option Value) :=
  match op with
  | .add | .sub | .mul | .div => applyArith op lhs rhs
  | .mod | .bitAnd | .bitOr | .bitXor | .shl | .shr => applyBitwise op lhs rhs
  | .eq | .ne => applyEquality op lhs rhs
  | .lt | .le | .gt | .ge => applyOrdered op lhs rhs
  | .and | .or => typeError op

def applyUnaryOp (op : UnaryOp) (v : Option Value) : Eval (Option Value) :=
  match op with
  | .neg =>
    match v with
    | some (.int i) => .ok (some (.int (-i)))
    | some (.float d) => .ok (some (.float (.ofFloat (-d.toFloat))))
    | _ => .error "type error: unary -"
  | .bitNot =>
    match v with
    | some (.int i) => .ok (some (.int (~~~i)))
    | _ => .error "type error: ~"
  | .not =>
    match coerceToBool v with
    | some b => .ok (some (.bool (!b)))
    | none => .error "type error: !"

/-! ## Built-in functions -/

def builtinAbs : Option Value → Eval (Option Value)
  | some (.int x) => .ok (some (.int (if x < 0 then -x else x)))
  | some (.float x) =>
    .ok (some (.float (if x.toFloat < 0 then .ofFloat (-x.toFloat) else x)))
  | _ => .error "abs: type mismatch"

def builtinMinMax (isMax : Bool) : Option Value → Option Value → Eval (Option Value)
  | some (.int x), some (.int y) =>
    .ok (some (.int (if isMax then if x > y then x else y else if x < y then x else y)))
  | some (.float x), some (.float y) =>
    .ok (some (.float
      (if isMax then if x.toFloat > y.toFloat then x else y
        else if x.toFloat < y.toFloat then x else y)))
  | _, _ => .error "min/max: type mismatch"

def builtinClamp : Option Value → Option Value → Option Value → Eval (Option Value)
  | some (.int x), some (.int lo), some (.int hi) =>
    .ok (some (.int (if x < lo then lo else if x > hi then hi else x)))
  | some (.float x), some (.float lo), some (.float hi) =>
    .ok (some (.float
      (if x.toFloat < lo.toFloat then lo else if x.toFloat > hi.toFloat then hi else x)))
  | _, _, _ => .error "clamp: type mismatch"

def builtinPeek (w : View) : Eval (Option Value) :=
  if w.pos ≥ w.effectiveEnd then .error "peek: end of input"
  else .ok (some (.int (.ofNat (leNat (bytesAt w.input w.pos 1)))))

/-- `CallApplyKont`: the built-in of that name and arity. -/
def applyCall (w : View) (func : String) (args : List (Option Value)) : Eval (Option Value) :=
  match func, args with
  | "abs", [x] => builtinAbs x
  | "min", [x, y] => builtinMinMax false x y
  | "max", [x, y] => builtinMinMax true x y
  | "clamp", [x, lo, hi] => builtinClamp x lo hi
  | "peek", [] => builtinPeek w
  | _, _ => .error "unknown function"

/-! ## References -/

namespace View

/-- `Environment::lookup`. -/
def lookup (w : View) (name : String) : Option Binding :=
  w.env.find? fun b => b.name == some name

/-- `builder::find_field`: the open scopes outward, each from its last child back. -/
def findField (w : View) (name : String) : Option Capture :=
  w.scopes.findSome? fun s => s.kids.reverse.find? fun c => c.leaf.name == some name

/-- `builder::current_scope_start`. -/
def scopeStart (w : View) : Nat := (w.scopes.head?.map fun s => s.leaf.startOffset).getD 0

end View

/-- `builder::find_child`. -/
def Capture.findChild (c : Capture) (name : String) : Option Capture :=
  c.kids.find? fun k => k.leaf.name == some name

/-- `builder::find_child_at`, the index through `int`. -/
def Capture.findChildAt (c : Capture) (index : Int64) : Option Capture :=
  let i := index.toInt.bmod (2 ^ 32)
  if i < 0 then none else c.kids[i.toNat]?

/-- `CaptureValueApplyKont`: a leaf's value, carried or read again from its span. -/
def captureValue (w : View) (c : Capture) : Eval (Option Value) :=
  match c.leaf.computedValue with
  | some cv => .ok (liftComputed (some cv))
  | none =>
    if c.leaf.type.floatLayout.isSome then
      match decodeFloatAt w.input c.leaf.startOffset c.leaf.type with
      | some d => .ok (some (.float d))
      | none => .error "path: cannot decode float leaf"
    else
      match decodeIntAt w.input c.leaf.startOffset c.leaf.type with
      | some (i, _) => .ok (some (.int i))
      | none => .error "path: cannot decode scalar leaf"

/-- What a span carries that no producer has named yet (`make_free`). -/
def Leaf.carrier (type : CaptureType) (startOffset endOffset : Nat)
    (computedValue : Option ComputedValue) : Leaf :=
  { name := none, type, startOffset, endOffset, computedValue, enc := .fixed
    bits := ⟨0, 0, false, false⟩ }

/-- A context builtin (`PosKont` … `BufferKont`). -/
def evalBuiltin (w : View) : Builtin → Eval (Option Value)
  | .pos => .ok (some (.int (.ofNat w.pos)))
  | .start => .ok (some (.int (.ofNat w.scopeStart)))
  | .stop => .ok (some (.int (.ofNat w.effectiveEnd)))
  | .remaining => .ok (some (.int (.ofInt ((w.effectiveEnd : Int) - w.pos))))
  | .index =>
    match w.counter with
    | some i => .ok (some (.int i))
    | none => .error "loop variable used outside array"
  | .buffer => .ok (some (.capture (.mk (.carrier .bytes w.scopeStart w.pos none) [])))

/-- `RefKont`. -/
def evalRef (w : View) (name : String) : Eval (Option Value) :=
  if w.env.isEmpty then .error "undefined reference (env empty)"
  else
    match w.lookup name with
    | some b => .ok b.value
    | none => .error "undefined reference"

/-- A condition on the way to a decision, with the text of its type error. -/
def expectBool (text : String) (v : Option Value) : Eval Bool :=
  match coerceToBool v with
  | some b => .ok b
  | none => .error text

/-! ## Evaluation -/

mutual

def eval (w : View) : Expr → Eval (Option Value)
  | .intLit v => .ok (some (.int v))
  | .floatLit v => .ok (some (.float v))
  | .strLit v => .ok (some (.string v))
  | .boolLit v => .ok (some (.bool v))
  | .endianLit v => .ok (some (.bool (v == .little)))
  | .eoi => .ok (some (.int (.ofNat w.input.length)))
  | .builtin n => evalBuiltin w n
  | .ref (.simple name _) => evalRef w name
  | .ref (.fieldAcc base field) => do captureValue w (← evalPath w (.fieldAcc base field))
  | .ref (.indexAcc base index) => do captureValue w (← evalPath w (.indexAcc base index))
  | .call func args => do applyCall w func (← evalArgs w args)
  | .unaryOp op operand => do applyUnaryOp op (← eval w operand)
  | .ternary cond thenBranch elseBranch => do
    if ← expectBool "type error: ternary cond" (← eval w cond) then eval w thenBranch
    else eval w elseBranch
  | .binOp left op right =>
    match op with
    | .and => do
      if ← expectBool "type error: && (left)" (← eval w left) then
        return some (.bool (← expectBool "type error: && or || (right)" (← eval w right)))
      else return some (.bool false)
    | .or => do
      if ← expectBool "type error: || (left)" (← eval w left) then return some (.bool true)
      else return some (.bool (← expectBool "type error: && or || (right)" (← eval w right)))
    | op => do
      let rhs ← eval w right
      let lhs ← eval w left
      applyBinOp op lhs rhs

/-- The capture a path names (`compile_ref_path`). -/
def evalPath (w : View) : RefPath → Eval Capture
  | .simple name _ =>
    match w.findField name with
    | some c => .ok c
    | none => .error "path: field not found"
  | .fieldAcc base field => do
    match (← evalPath w base).findChild field with
    | some c => .ok c
    | none => .error "path: field not in capture"
  | .indexAcc base index => do
    let i ← eval w index
    let c ← evalPath w base
    match i with
    | some (.int i) =>
      match c.findChildAt i with
      | some k => .ok k
      | none => .error "path: index out of range"
    | _ => .error "path: index not integer"

def evalArgs (w : View) : Args → Eval (List (Option Value))
  | .nil => .ok []
  | .cons arg rest => do
    let v ← eval w arg
    return v :: (← evalArgs w rest)

end

/-! ## The field a bound names -/

/-- `count_path_of` on a path. -/
def pathName : RefPath → Option String
  | .simple name _ => if name.isEmpty then none else some name
  | .fieldAcc base field =>
    (pathName base).bind fun b => if field.isEmpty then none else some (b ++ "." ++ field)
  | .indexAcc _ _ => none

/-- `count_path_of`: the field an expression names, when it is nothing but a reference to one. -/
def countPathOf : Expr → Option String
  | .ref (.simple name resolvedPath) =>
    let s := match resolvedPath with
      | some p => if p.isEmpty then name else p
      | none => name
    if s.isEmpty then none else some s
  | .ref path => pathName path
  | _ => none

end Cek

end Bbq
