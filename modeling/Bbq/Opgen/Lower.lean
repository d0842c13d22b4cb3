import Bbq.Opgen.Spec

/-!
# Lowering a body to C

`lower_expr` and `lower_stmt` of an interpreter body, as C trees, and what the C means.

* `lowerExpr` and `lowerStmt` have no result where the source stops (an unknown type name, an operand without a width)
  and where the text reads or changes the state of the virtual machine: no kernel is emitted for such a body.
* What the operators of C do is a parameter, `Arith`: both emitted functions are compiled by one compiler with one set
  of flags. `wrapping` is the arithmetic of `-fwrapv` on integers.
* A variable that is declared without a value holds anything, `junk`.
-/

namespace Bbq.Opgen

/-! ## C trees -/

inductive CExpr
  | const (v : Int64)
  | floatConst (bits : UInt64)
  | var (x : String)
  | unary (op : String) (e : CExpr)
  | binary (op : String) (l r : CExpr)
  | select (c t e : CExpr)
  | cast (ty : Scalar) (e : CExpr)
  | call (fn : String) (args : List CExpr)
  /-- A union written through one member and read through another. -/
  | pun (src dst : Scalar) (e : CExpr)

inductive CStmt
  /-- `x = (ty)(e);` -/
  | assign (x : String) (ty : Scalar) (e : CExpr)
  /-- `ty x = (ty)(e);` or `ty x;` -/
  | decl (ty : Scalar) (x : String) (init : Option CExpr)
  | ite (c : CExpr) (t e : List CStmt)
  | loop (c : CExpr) (body : List CStmt)
  | block (body : List CStmt)

/-! ## Lowering -/

section

variable (m : Spec) (op : Opcode)

def Scalar.isFloat : Scalar → Bool
  | .f4 | .f8 => true
  | _ => false

def Scalar.isInteger : Scalar → Bool
  | .s1 | .u1 | .s2 | .u2 | .s4 | .u4 | .s8 | .u8 => true
  | _ => false

/-- `scalar_bits` of a spelling that names its width. -/
def Scalar.bits : Scalar → Option Nat
  | .s1 | .u1 => some 8
  | .s2 | .u2 => some 16
  | .s4 | .u4 | .f4 => some 32
  | .s8 | .u8 | .f8 => some 64
  | .v128T | .anyT | .refT => none

/-- `int_slot_view`: the width of the widest single-slot integer row, the first of these. -/
def Spec.slotViewBits (m : Spec) : Nat :=
  (m.types.foldl (fun (acc : Option Nat) d =>
    let r := m.jtype d.ty
    if r.slots = 1 ∧ r.scalar.isInteger then
      match r.scalar.bits, acc with
      | some bits, some best => if bits > best then some bits else acc
      | some bits, none => some bits
      | none, _ => acc
    else acc) none).getD 16

/-- `scalar_bits`: a reference is as wide as the slot view. -/
def Spec.scalarBits (m : Spec) : Scalar → Option Nat
  | .refT => some m.slotViewBits
  | s => s.bits

/-- `java_c`. -/
def javaC : String → Option Scalar
  | "byte" | "boolean" => some .s1
  | "short" => some .s2
  | "char" => some .u2
  | "int" => some .s4
  | "long" => some .s8
  | "uint" => some .u4
  | "ulong" => some .u8
  | "float" => some .f4
  | "double" => some .f8
  | "any" => some .anyT
  | _ => none

/-- `arg_type`, and the operand type of a `signed` or `unsigned` cast. -/
def Opcode.argType (op : Opcode) (e : Option SemExpr) (rt : ValueType) : ValueType :=
  match e with
  | some (.ident n) => op.typeOfName n
  | _ => rt

/-- The unsigned scalar a float is punned to. -/
def punCarrier (bits : Nat) : Scalar := if bits ≥ 64 then .u8 else .u4

def intConst (n : Nat) : CExpr := .const (.ofInt n)

def intrinsicArity (name : String) : Nat :=
  if name = "int_min" then 0
  else if name ∈ ["copysign", "fmin", "fmax", "rotl", "rotr"] then 2
  else 1

/-- `lower_intrinsic`, of arguments lowered at the type of the first. -/
def lowerIntrinsic (name : String) (rt at_ : ValueType) (args : List CExpr) : Option CExpr :=
  if name = "int_min" then do
    let w ← m.scalarBits (m.cScalar rt)
    return .cast (m.cScalar rt) (.binary "<<" (.cast (m.cUnsigned rt) (intConst 1)) (intConst (w - 1)))
  else if name = "push" ∨ name = "pop" then none
  else do
    let w ← m.scalarBits (m.cScalar at_)
    let wide := w ≥ 64
    let mask := fun e => CExpr.binary "&" e (intConst (w - 1))
    let u := m.cUnsigned at_
    let sc := m.cScalar at_
    match name, args with
    | "sqrt", [a] => return .call (if wide then "sqrt" else "sqrtf") [a]
    | "fabs", [a] => return .call (if wide then "fabs" else "fabsf") [a]
    | "ceil", [a] => return .call (if wide then "ceil" else "ceilf") [a]
    | "floor", [a] => return .call (if wide then "floor" else "floorf") [a]
    | "ftrunc", [a] => return .call (if wide then "trunc" else "truncf") [a]
    | "nearest", [a] => return .call (if wide then "rint" else "rintf") [a]
    | "copysign", [a, b] => return .call (if wide then "copysign" else "copysignf") [a, b]
    | "fmin", [a, b] => return extremum "<" a b a b
    | "fmax", [a, b] => return extremum ">" a b b a
    | "clz", [a] => return zeroOr w a (.call (if wide then "__builtin_clzll" else "__builtin_clz") [.cast u a])
    | "ctz", [a] => return zeroOr w a (.call (if wide then "__builtin_ctzll" else "__builtin_ctz") [.cast u a])
    | "popcnt", [a] => return .call (if wide then "__builtin_popcountll" else "__builtin_popcount") [.cast u a]
    | "rotl", [a, b] => return .cast sc (rotate w "<<" ">>" mask u a b)
    | "rotr", [a, b] => return .cast sc (rotate w ">>" "<<" mask u a b)
    | "reinterpret", [a] => return .pun sc (m.cScalar rt) a
    | _, _ => none
where
  /-- `fmin` and `fmax`, with what a tie gives for a negative first argument and for another. -/
  extremum (cmp : String) (a b neg pos : CExpr) : CExpr :=
    .select (.binary "||" (.call "isnan" [a]) (.call "isnan" [b])) (.binary "+" a b)
      (.select (.binary cmp a b) a (.select (.binary cmp b a) b (.select (.call "signbit" [a]) neg pos)))
  zeroOr (w : Nat) (a count : CExpr) : CExpr := .select (.binary "==" a (intConst 0)) (intConst w) count
  rotate (w : Nat) (there back : String) (mask : CExpr → CExpr) (u : Scalar) (a b : CExpr) : CExpr :=
    .binary "|" (.binary there (.cast u a) (mask b))
      (.binary back (.cast u a) (mask (.binary "-" (intConst w) (mask b))))

mutual

/-- `lower_expr` in interpreter mode, outside a lane loop. -/
def lowerExpr (rt : ValueType) : SemExpr → Option CExpr
  | .binOp bop l r => do
    let l ← lowerExpr rt l
    let r ← lowerExpr rt r
    if bop = ">>>" ∨ bop = "<<" ∨ bop = ">>" then do
      let w ← m.scalarBits (m.cScalar rt)
      let count := CExpr.binary "&" r (intConst (w - 1))
      if bop = ">>>" then return .binary ">>" (.cast (m.cUnsigned rt) l) count else return .binary bop l count
    else return .binary bop l r
  | .unary uop e => do
    let c ← lowerExpr rt e
    if uop = "-" ∧ (m.cScalar rt).isFloat then do
      let w ← m.scalarBits (m.cScalar rt)
      let u := punCarrier w
      let sign := CExpr.binary "<<" (.cast u (intConst 1)) (intConst (w - 1))
      return .pun u (m.cScalar rt) (.binary "^" (.pun (m.cScalar rt) u c) sign)
    else return .unary uop c
  | .ternary c t e => do return .select (← lowerExpr rt c) (← lowerExpr rt t) (← lowerExpr rt e)
  | .cast ty e =>
    if ty = "unsigned" ∨ ty = "signed" then do
      let ot := op.argType (some e) rt
      return .cast (if ty = "unsigned" then m.cUnsigned ot else m.cScalar ot) (← lowerExpr ot e)
    else do return .cast (← javaC ty) (← lowerExpr rt e)
  | .index _ _ => none
  | .call name args =>
    if name ∈ intrinsics then do
      let at_ := op.argType args.head? rt
      lowerIntrinsic m name rt at_ (← lowerArgs at_ (intrinsicArity name) args)
    else none
  | .ident n => if n = "sp" ∨ n = "stp" ∨ n = "pc" then none else some (.var n)
  | .int v => some (.const v)
  | .float bits => some (.floatConst bits)

/-- The first `n` arguments; an intrinsic looks at no others. -/
def lowerArgs (rt : ValueType) : (n : Nat) → List SemExpr → Option (List CExpr)
  | 0, _ => some []
  | _ + 1, [] => none
  | n + 1, e :: es => do return (← lowerExpr rt e) :: (← lowerArgs rt n es)

end

/-- The type a local's initializer is lowered at. -/
def initType : String → ValueType
  | "long" | "ulong" => .i64
  | "double" => .f64
  | "float" => .f32
  | "any" => .any
  | _ => .i32

/-- Whether an assignment to the type goes through a cast: the others move a whole slot. -/
def ValueType.isScalar : ValueType → Bool
  | .word | .any | .v128 | .i8x16 | .i16x8 | .i32x4 | .i64x2 | .f32x4 | .f64x2 => false
  | _ => true

mutual

/-- `lower_stmt`: a block is its statements, without braces. -/
def lowerStmt : SemStmt → Option (List CStmt)
  | .assign (.ident n) v =>
    let rt := op.typeOfName n
    if n = "sp" ∨ n = "stp" ∨ !rt.isScalar then none
    else do return [.assign n (m.cScalar rt) (← lowerExpr m op rt v)]
  | .assign _ _ | .exprStmt _ | .trap => none
  | .localDecl ty n init => do
    let ct ← javaC ty
    match init with
    | none => return [.decl ct n none]
    | some e => return [.decl ct n (some (← lowerExpr m op (initType ty) e))]
  | .if_ c t e => do
    return [.ite (← lowerExpr m op .i32 c) (← lowerStmt t) (← lowerOpt e)]
  | .while_ c b => do return [.loop (← lowerExpr m op .i32 c) (← lowerStmt b)]
  | .for_ i c u b => do
    let init ← lowerOpt i
    let cond ← match c with
      | none => some (intConst 1)
      | some c => lowerExpr m op .i32 c
    return [.block (init ++ [.loop cond ((← lowerStmt b) ++ (← lowerOpt u))])]
  | .block ss => lowerStmts ss

def lowerOpt : Option SemStmt → Option (List CStmt)
  | none => some []
  | some s => lowerStmt s

def lowerStmts : List SemStmt → Option (List CStmt)
  | [] => some []
  | s :: ss => do return (← lowerStmt s) ++ (← lowerStmts ss)

end

end

/-! ## What C means -/

/-- The values of C and its operators. -/
structure Arith where
  Val : Type
  const : Int64 → Val
  floatConst : UInt64 → Val
  unary : String → Val → Val
  binary : String → Val → Val → Val
  /-- `c ? t : e`. -/
  select : Val → Val → Val → Val
  cast : Scalar → Val → Val
  call : String → List Val → Val
  pun : Scalar → Scalar → Val → Val
  truth : Val → Bool

/-- The variables in scope, each with its declared type. -/
abbrev Vars (A : Arith) := String → Scalar × A.Val

section

variable (A : Arith)

def Vars.set {A : Arith} (vars : Vars A) (x : String) (ty : Scalar) (v : A.Val) : Vars A :=
  fun y => if y = x then (ty, v) else vars y

mutual

def CExpr.eval (vars : Vars A) : CExpr → A.Val
  | .const v => A.const v
  | .floatConst bits => A.floatConst bits
  | .var x => (vars x).2
  | .unary op e => A.unary op (e.eval vars)
  | .binary op l r => A.binary op (l.eval vars) (r.eval vars)
  | .select c t e => A.select (c.eval vars) (t.eval vars) (e.eval vars)
  | .cast ty e => A.cast ty (e.eval vars)
  | .call fn args => A.call fn (CExpr.evalAll vars args)
  | .pun src dst e => A.pun src dst (e.eval vars)

def CExpr.evalAll (vars : Vars A) : List CExpr → List A.Val
  | [] => []
  | e :: es => e.eval vars :: CExpr.evalAll vars es

end

/-- The names the statements declare in the scope they stand in. -/
def declared : List CStmt → List String
  | [] => []
  | .decl _ x _ :: ss => x :: declared ss
  | _ :: ss => declared ss

/-- The variables after a scope, which hides those it declared. -/
def leave {A : Arith} (names : List String) (outer inner : Vars A) : Vars A :=
  fun x => if x ∈ names then outer x else inner x

/-- A loop of at most `n` rounds. -/
def iterate {A : Arith} (cond : Vars A → Bool) (body : Vars A → Option (Vars A)) : (n : Nat) → Vars A → Option (Vars A)
  | 0, _ => none
  | n + 1, vars => if cond vars then (body vars).bind (iterate cond body n) else some vars

variable (junk : String → A.Val) (n : Nat)

mutual

/-- Run a statement; `none` when a loop goes on for `n` rounds. -/
def CStmt.run : CStmt → Vars A → Option (Vars A)
  | .assign x ty e, vars => some (vars.set x (vars x).1 (A.cast (vars x).1 (A.cast ty (e.eval A vars))))
  | .decl ty x none, vars => some (vars.set x ty (junk x))
  | .decl ty x (some e), vars => some (vars.set x ty (A.cast ty (e.eval A (vars.set x ty (junk x)))))
  | .ite c t e, vars =>
    if A.truth (c.eval A vars) then (CStmt.runAll t vars).map (leave (declared t) vars)
    else (CStmt.runAll e vars).map (leave (declared e) vars)
  | .loop c body, vars =>
    iterate (fun vars => A.truth (c.eval A vars))
      (fun vars => (CStmt.runAll body vars).map (leave (declared body) vars)) n vars
  | .block body, vars => (CStmt.runAll body vars).map (leave (declared body) vars)

def CStmt.runAll : List CStmt → Vars A → Option (Vars A)
  | [], vars => some vars
  | s :: ss, vars => (s.run vars).bind fun vars => CStmt.runAll ss vars

end

end

/-! ### Integers under `-fwrapv` -/

structure CInt where
  ty : Scalar
  v : Int
  deriving DecidableEq, Repr

namespace CInt

def signed : Scalar → Bool
  | .s1 | .s2 | .s4 | .s8 => true
  | _ => false

def width (ty : Scalar) : Nat := ty.bits.getD 64

/-- The value of a conversion. -/
def convert (ty : Scalar) (v : Int) : CInt :=
  ⟨ty, if signed ty then v.bmod (2 ^ width ty) else v % 2 ^ width ty⟩

/-- The integer promotions. -/
def promoted (ty : Scalar) : Scalar := if width ty < 32 then .s4 else ty

/-- The usual arithmetic conversions. -/
def common (a b : Scalar) : Scalar :=
  if width (promoted a) < width (promoted b) then promoted b
  else if width (promoted b) < width (promoted a) then promoted a
  else if signed (promoted a) then promoted b else promoted a

def ofBool (b : Bool) : CInt := ⟨.s4, if b then 1 else 0⟩

/-- An operator on the bits of two operands. -/
def bitwise (f : BitVec 64 → BitVec 64 → BitVec 64) (x y : Int) : Int := (f (.ofInt 64 x) (.ofInt 64 y)).toInt

def binary (op : String) (a b : CInt) : CInt :=
  let ty := common a.ty b.ty
  let x := (convert ty a.v).v
  let y := (convert ty b.v).v
  match op with
  | "+" => convert ty (x + y)
  | "-" => convert ty (x - y)
  | "*" => convert ty (x * y)
  | "/" => convert ty (x.tdiv y)
  | "%" => convert ty (x.tmod y)
  | "&" => convert ty (bitwise (· &&& ·) x y)
  | "|" => convert ty (bitwise (· ||| ·) x y)
  | "^" => convert ty (bitwise (· ^^^ ·) x y)
  | "==" => ofBool (decide (x = y))
  | "!=" => ofBool (decide (x ≠ y))
  | "<" => ofBool (decide (x < y))
  | "<=" => ofBool (decide (x ≤ y))
  | ">" => ofBool (decide (x > y))
  | ">=" => ofBool (decide (x ≥ y))
  | "&&" => ofBool (decide (a.v ≠ 0 ∧ b.v ≠ 0))
  | "||" => ofBool (decide (a.v ≠ 0 ∨ b.v ≠ 0))
  | "<<" => convert (promoted a.ty) (a.v * 2 ^ b.v.toNat)
  | ">>" => convert (promoted a.ty) (a.v / 2 ^ b.v.toNat)
  | _ => a

def unary (op : String) (a : CInt) : CInt :=
  match op with
  | "-" => convert (promoted a.ty) (-a.v)
  | "~" => convert (promoted a.ty) (-a.v - 1)
  | "!" => ofBool (decide (a.v = 0))
  | _ => a

def select (c t e : CInt) : CInt := convert (common t.ty e.ty) (if c.v ≠ 0 then t.v else e.v)

end CInt

/-- Integers; a float is its bits, and no function of floats is computed. -/
def wrapping : Arith where
  Val := CInt
  const v := if -2 ^ 31 ≤ v.toInt ∧ v.toInt < 2 ^ 31 then ⟨.s4, v.toInt⟩ else ⟨.s8, v.toInt⟩
  floatConst bits := ⟨.f8, bits.toNat⟩
  unary := CInt.unary
  binary := CInt.binary
  select := CInt.select
  cast ty a := CInt.convert ty a.v
  call _ _ := ⟨.s4, 0⟩
  pun _ dst a := CInt.convert dst a.v
  truth a := decide (a.v ≠ 0)

/-! ## Scopes -/

mutual

/-- The variables an expression names. -/
def CExpr.names : CExpr → List String
  | .const _ | .floatConst _ => []
  | .var x => [x]
  | .unary _ e | .cast _ e | .pun _ _ e => e.names
  | .binary _ l r => l.names ++ r.names
  | .select c t e => c.names ++ t.names ++ e.names
  | .call _ args => CExpr.allNames args

def CExpr.allNames : List CExpr → List String
  | [] => []
  | e :: es => e.names ++ CExpr.allNames es

end

/-- Every variable of the expression is visible. -/
def CExpr.scoped (e : CExpr) (visible : List String) : Bool := e.names.all (· ∈ visible)

mutual

/-- What a compiler checks of a statement: variables are declared, and not declared twice in one scope. `here` is the
scope the statement stands in, `outer` those around it. -/
def CStmt.scoped (outer here : List String) : CStmt → Bool
  | .assign x _ e => decide (x ∈ here ++ outer) && e.scoped (here ++ outer)
  | .decl _ x none => decide (x ∉ here)
  | .decl _ x (some e) => decide (x ∉ here) && e.scoped (x :: here ++ outer)
  | .ite c t e =>
    c.scoped (here ++ outer) && CStmt.scopedAll (here ++ outer) [] t && CStmt.scopedAll (here ++ outer) [] e
  | .loop c body => c.scoped (here ++ outer) && CStmt.scopedAll (here ++ outer) [] body
  | .block body => CStmt.scopedAll (here ++ outer) [] body

def CStmt.scopedAll (outer here : List String) : List CStmt → Bool
  | [] => true
  | s :: ss => s.scoped outer here && CStmt.scopedAll outer (declared [s] ++ here) ss

end

end Bbq.Opgen
