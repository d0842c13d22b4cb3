import Mathlib.Algebra.Ring.Int.Defs
import Mathlib.Algebra.Ring.Nat
import Mathlib.Data.List.Basic

/-!
# Opcode specifications

The parts of an `opcodes.def` that the interpreter and the reference kernels are generated from: type rows, stack
signatures, operands, `error:` guards and bodies in the action language.

Annotations of an opcode that neither generator reads (`facts`, `verify_reject`, edges, branches, flags of the tables)
are left out, and so are native declarations: a body that calls one has no kernel.
-/

namespace Bbq.Opgen

/-- `value_type`. -/
inductive ValueType
  | i8 | i16 | i32 | u8 | u16 | ref | word | dword | i64 | f32 | f64 | v128
  | i8x16 | i16x8 | i32x4 | i64x2 | f32x4 | f64x2
  | funcRef | externRef | i31Ref
  | uleb32 | uleb64 | sleb32 | sleb64 | memarg | blockType | brTable | tryTable | selectVec
  | any | addr
  deriving DecidableEq, Repr

/-- The C spellings a type row may name. -/
inductive Scalar
  | s1 | u1 | s2 | u2 | s4 | u4 | f4 | s8 | u8 | f8 | v128T | anyT | refT
  deriving DecidableEq, Repr

/-- `jrow`, and a `type` row of the spec but for its type. -/
structure Jrow where
  scalar : Scalar
  uscalar : Scalar
  slots : Nat
  field : Char
  deriving DecidableEq, Repr

structure TypeDecl where
  ty : ValueType
  row : Jrow
  deriving DecidableEq, Repr

inductive SemExpr
  | binOp (op : String) (left right : SemExpr)
  | unary (op : String) (operand : SemExpr)
  | ternary (cond then_ else_ : SemExpr)
  | cast (ty : String) (operand : SemExpr)
  | index (base index : SemExpr)
  | call (name : String) (args : List SemExpr)
  | ident (name : String)
  | int (value : Int64)
  /-- A double, by its bits. -/
  | float (bits : UInt64)

inductive SemStmt
  | assign (target value : SemExpr)
  | exprStmt (value : SemExpr)
  | localDecl (ty name : String) (init : Option SemExpr)
  | if_ (cond : SemExpr) (then_ : SemStmt) (else_ : Option SemStmt)
  | while_ (cond : SemExpr) (body : SemStmt)
  | for_ (init : Option SemStmt) (cond : Option SemExpr) (update : Option SemStmt) (body : SemStmt)
  | block (stmts : List SemStmt)
  | trap

structure StackParam where
  ty : ValueType
  name : String
  /-- `= "…"`, quotes included. -/
  semExpr : Option String
  count : Option SemExpr
  atSrc : Option SemExpr

structure OperandParam where
  ty : ValueType
  name : String

structure ErrorCase where
  condition : Option SemExpr
  errorName : String

structure Opcode where
  mnemonic : String
  operands : List OperandParam
  stackIn : List StackParam
  stackOut : List StackParam
  errors : List ErrorCase
  semBody : List SemStmt

structure Spec where
  types : List TypeDecl
  opcodes : List Opcode

/-- `Spec::forwarded_name`: empty for an output that is not forwarded. -/
def StackParam.forwardedName (sp : StackParam) : String :=
  match sp.semExpr with
  | none => ""
  | some se =>
    let cs := se.toList
    if cs.length ≥ 2 ∧ cs.head? = some '"' ∧ cs.getLast? = some '"' then String.ofList (cs.tail.dropLast) else se

/-! ## The type table -/

/-- `jtype` of a type that no row of the spec declares. -/
def defaultRow : ValueType → Jrow
  | .i8 => ⟨.s1, .u1, 1, 's'⟩
  | .u8 => ⟨.u1, .u1, 1, 's'⟩
  | .i16 => ⟨.s2, .u2, 1, 's'⟩
  | .u16 => ⟨.u2, .u2, 1, 's'⟩
  | .word => ⟨.s2, .u2, 1, 's'⟩
  | .i32 | .dword => ⟨.s4, .u4, 2, 's'⟩
  | .ref => ⟨.refT, .refT, 1, 'r'⟩
  | .i64 => ⟨.s8, .u8, 2, 'i'⟩
  | .f32 => ⟨.f4, .f4, 1, 'f'⟩
  | .f64 => ⟨.f8, .f8, 2, 'f'⟩
  | .any => ⟨.anyT, .anyT, 1, 'i'⟩
  | .addr => ⟨.u8, .u8, 1, 'l'⟩
  | .v128 | .i8x16 | .i16x8 | .i32x4 | .i64x2 | .f32x4 | .f64x2 => ⟨.v128T, .v128T, 1, 'v'⟩
  | .funcRef | .externRef | .i31Ref => ⟨.refT, .refT, 1, 'r'⟩
  | .uleb32 => ⟨.u4, .u4, 1, 's'⟩
  | .uleb64 | .memarg => ⟨.u8, .u8, 1, 's'⟩
  | .sleb32 | .blockType => ⟨.s4, .u4, 1, 's'⟩
  | .sleb64 => ⟨.s8, .u8, 1, 's'⟩
  | .brTable | .tryTable | .selectVec => ⟨.s4, .u4, 2, 's'⟩

def Spec.jtype (m : Spec) (t : ValueType) : Jrow :=
  match m.types.find? fun d => d.ty == t with
  | some d => d.row
  | none => defaultRow t

def Spec.cScalar (m : Spec) (t : ValueType) : Scalar := (m.jtype t).scalar

def Spec.cUnsigned (m : Spec) (t : ValueType) : Scalar := (m.jtype t).uscalar

/-- The suffix of the slot macros. -/
inductive SlotClass
  | v128 | ref | long | float | double | int | word | any | addr | i16
  deriving DecidableEq, Repr

/-- `slot_class`: sub-word integers, and whatever else has no class of its own, are `I16`. -/
def slotClass : ValueType → SlotClass
  | .i8x16 | .i16x8 | .i32x4 | .i64x2 | .f32x4 | .f64x2 | .v128 => .v128
  | .ref | .funcRef | .externRef | .i31Ref => .ref
  | .i64 => .long
  | .f32 => .float
  | .f64 => .double
  | .i32 | .dword => .int
  | .word => .word
  | .any => .any
  | .addr => .addr
  | _ => .i16

/-- The scalar `GPOP` and `GPUSH` of a class move: `emit_slot_macros` writes them for the first row of the class. -/
def Spec.classScalar (m : Spec) (c : SlotClass) : Option Scalar :=
  (m.types.find? fun d => slotClass d.ty == c).map fun d => m.cScalar d.ty

/-! ## Names -/

/-- `type_of_name`: an output before an input before an operand. -/
def Opcode.typeOfName (op : Opcode) (name : String) : ValueType :=
  match op.stackOut.find? fun s => s.name == name with
  | some s => s.ty
  | none =>
    match op.stackIn.find? fun s => s.name == name with
    | some s => s.ty
    | none =>
      match op.operands.find? fun o => o.name == name with
      | some o => o.ty
      | none => .i32

mutual

/-- `expr_refs_name`, which does not look at the names of calls. -/
def SemExpr.refsName (name : String) : SemExpr → Bool
  | .binOp _ l r => l.refsName name || r.refsName name
  | .unary _ e => e.refsName name
  | .ternary c t e => c.refsName name || t.refsName name || e.refsName name
  | .cast _ e => e.refsName name
  | .index b i => b.refsName name || i.refsName name
  | .call _ args => SemExpr.anyRefsName name args
  | .ident n => n == name
  | .int _ | .float _ => false

def SemExpr.anyRefsName (name : String) : List SemExpr → Bool
  | [] => false
  | e :: es => e.refsName name || SemExpr.anyRefsName name es

end

mutual

/-- `stmt_refs_name`: a name that is only declared is not mentioned. -/
def SemStmt.refsName (name : String) : SemStmt → Bool
  | .assign t v => t.refsName name || v.refsName name
  | .exprStmt e => e.refsName name
  | .localDecl _ _ init =>
    match init with
    | some e => e.refsName name
    | none => false
  | .if_ c t e => c.refsName name || t.refsName name || SemStmt.optRefsName name e
  | .while_ c b => c.refsName name || b.refsName name
  | .for_ i c u b =>
    SemStmt.optRefsName name i || (c.elim false fun e => e.refsName name) || SemStmt.optRefsName name u ||
      b.refsName name
  | .block ss => SemStmt.anyRefsName name ss
  | .trap => false

def SemStmt.optRefsName (name : String) : Option SemStmt → Bool
  | none => false
  | some s => s.refsName name

def SemStmt.anyRefsName (name : String) : List SemStmt → Bool
  | [] => false
  | s :: ss => s.refsName name || SemStmt.anyRefsName name ss

end

/-- `cond_type`: the type of the first input, then operand, that a condition names. -/
def Opcode.condType (op : Opcode) (cond : SemExpr) : ValueType :=
  match op.stackIn.find? fun s => cond.refsName s.name with
  | some s => s.ty
  | none =>
    match op.operands.find? fun o => cond.refsName o.name with
    | some o => o.ty
    | none => .i32

/-- `stack_in_live`: the body, a forwarded output or a guard mentions the input. -/
def Opcode.stackInLive (op : Opcode) (si : StackParam) : Bool :=
  op.semBody.any (·.refsName si.name) || op.stackOut.any (fun so => so.forwardedName == si.name) ||
    op.errors.any fun e => e.condition.elim false fun c => c.refsName si.name

/-- The distinct names of the `error:` declarations, each at its first. -/
def errorNames (names : List String) : List String :=
  names.foldl (fun seen n => if n ∈ seen then seen else seen ++ [n]) []

/-- The number of an error, the same in `opgen_err_t` and among the status codes of the kernels. -/
def Spec.errorCode (m : Spec) (name : String) : Nat :=
  (errorNames (m.opcodes.flatMap fun op => op.errors.map (·.errorName))).idxOf name

/-! ## Closed bodies -/

def intrinsics : List String :=
  ["sqrt", "fabs", "ceil", "floor", "ftrunc", "nearest", "fmin", "fmax", "copysign", "clz", "ctz", "popcnt", "rotl",
    "rotr", "reinterpret", "push", "pop", "int_min"]

/-- `param_open_reason`. -/
def Spec.paramOpenReason (m : Spec) (ty : ValueType) : Option String :=
  match ty with
  | .word | .any | .v128 | .i8x16 | .i16x8 | .i32x4 | .i64x2 | .f32x4 | .f64x2 =>
    some "slot-typed parameter (word/any/v128)"
  | .brTable | .tryTable | .selectVec => some "operand without a scalar carrier"
  | _ => if m.cScalar ty = .f4 ∨ m.cScalar ty = .f8 then some "floating-point type" else none

mutual

/-- `expr_open_reason`. -/
def SemExpr.openReason : SemExpr → Option String
  | .index _ _ => some "accesses locals[]/globals[]/code[]/stack[]"
  | .call name args =>
    if name = "push" ∨ name = "pop" then some "stack-effect intrinsic (push/pop)"
    else if name ∉ intrinsics then some "calls a native"
    else SemExpr.anyOpenReason args
  | .ident n =>
    if n = "sp" ∨ n = "pc" ∨ n = "stp" ∨ n = "lane" then some "reads VM state (sp/pc/stp/lane)" else none
  | .binOp _ l r => l.openReason.or r.openReason
  | .unary _ e => e.openReason
  | .ternary c t e => (c.openReason.or t.openReason).or e.openReason
  | .cast _ e => e.openReason
  | .int _ | .float _ => none

def SemExpr.anyOpenReason : List SemExpr → Option String
  | [] => none
  | e :: es => e.openReason.or (SemExpr.anyOpenReason es)

end

mutual

/-- `stmt_open_reason`. -/
def SemStmt.openReason : SemStmt → Option String
  | .assign t v => t.openReason.or v.openReason
  | .exprStmt _ => some "statement-level built-in call"
  | .localDecl _ _ init => init.bind (·.openReason)
  | .if_ c t e => (c.openReason.or t.openReason).or (SemStmt.optOpenReason e)
  | .while_ c b => c.openReason.or b.openReason
  | .for_ i c u b =>
    (((SemStmt.optOpenReason i).or (c.bind (·.openReason))).or (SemStmt.optOpenReason u)).or b.openReason
  | .block ss => SemStmt.anyOpenReason ss
  | .trap => some "explicit trap"

def SemStmt.optOpenReason : Option SemStmt → Option String
  | none => none
  | some s => s.openReason

def SemStmt.anyOpenReason : List SemStmt → Option String
  | [] => none
  | s :: ss => s.openReason.or (SemStmt.anyOpenReason ss)

end

/-- What `open_reason` asks of an input. -/
def Spec.inputOpenReason (m : Spec) (p : StackParam) : Option String :=
  if p.count.isSome then some "variadic stack parameter"
  else if p.atSrc.isSome then some "addrtype-sourced parameter"
  else m.paramOpenReason p.ty

/-- `open_reason`: why an opcode has no reference kernel. Of an output only the type is looked at. -/
def Spec.openReason (m : Spec) (op : Opcode) : Option String :=
  if op.semBody = [] then some "no body"
  else
    (op.stackIn.findSome? m.inputOpenReason).or <|
    (op.stackOut.findSome? fun p => m.paramOpenReason p.ty).or <|
    (op.operands.findSome? fun p => m.paramOpenReason p.ty).or <|
    (op.errors.findSome? fun e => e.condition.bind (·.openReason)).or <|
    SemStmt.anyOpenReason op.semBody

end Bbq.Opgen
