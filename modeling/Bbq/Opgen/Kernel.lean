import Bbq.Opgen.Lower

/-!
# Handlers and reference kernels

The two C functions of an opcode: the handler of the interpreter (`emit_one_opcode` in interpreter mode) and the
reference kernel (`emit_kernel`), each with the names it declares, what a compiler checks of it, and what it computes.

* Only what an opcode with a kernel needs is here: no loop over lanes, no variadic input, no input with an address type.
* `memidx`, which the handler decodes of a memory operand beside the offset, is a name that nothing may mention: no
  kernel declares it.
-/

namespace Bbq.Opgen

variable (m : Spec) (op : Opcode)

/-! ## Names and scopes -/

/-- Whether the handler declares a local for the output: it is neither forwarded nor variadic. -/
def StackParam.hasLocal (so : StackParam) : Bool := so.semExpr.isNone && so.count.isNone

/-- `is_param_name`. -/
def Opcode.isParamName (op : Opcode) (name : String) : Bool :=
  op.stackIn.any (·.name == name) || op.operands.any (·.name == name)

/-- What the handler pushes for an output. -/
def StackParam.pushedName (so : StackParam) : String := if so.forwardedName = "" then so.name else so.forwardedName

/-- The conditions of the guards, with their errors. -/
def guards : List (SemExpr × String) := op.errors.filterMap fun e => e.condition.map fun c => (c, e.errorName)

def lowerGuard (c : SemExpr) : Option CExpr := lowerExpr m op (op.condType c) c

/-- The inputs the handler pops, the top of the stack first. -/
def livePops : List StackParam := op.stackIn.reverse.filter op.stackInLive

/-- What the handler declares before its guards. -/
def handlerParams : List String := op.operands.map (·.name) ++ (livePops op).map (·.name)

def handlerOuts : List String := (op.stackOut.filter (·.hasLocal)).map (·.name)

/-- Names of the handler that no body may mention. -/
def handlerReserved : List String :=
  ["vm", "f"] ++ (if op.semBody.any (·.refsName "scratch") then ["scratch", "scratch_t"] else []) ++
    (op.operands.filter (·.ty == .memarg)).flatMap fun od => [od.name ++ "_flags", "memidx"]

def kernelParams : List String := op.stackIn.map (·.name) ++ op.operands.map (·.name)

/-- The outputs a kernel declares a local for. -/
def kernelOuts : List StackParam := op.stackOut.filter fun so => !op.isParamName so.name

def kernelReserved : List String := op.stackOut.map fun so => "out_" ++ so.name

/-- What a compiler checks of the guards and the body. -/
def bodyCompiles (params names reserved : List String) : Bool :=
  ((guards op).all fun g => (lowerGuard m op g.1).any (·.scoped params)) &&
    (lowerStmts m op op.semBody).any fun body =>
      CStmt.scopedAll [] names body && (declared body).all (· ∉ reserved)

/-- The handler compiles: its names are distinct, its slot macros exist, and it mentions what it declares. -/
def handlerCompiles : Bool :=
  decide (handlerReserved op ++ handlerParams op ++ handlerOuts op).Nodup &&
    ((livePops op).all fun si => (m.classScalar (slotClass si.ty)).isSome && si.ty != .addr) &&
    (op.stackOut.all fun so =>
      if so.count.isSome then true
      else (m.classScalar (slotClass so.ty)).isSome &&
        decide (so.pushedName ∈ handlerParams op ++ handlerOuts op ++ declared ((lowerStmts m op op.semBody).getD []))) &&
    bodyCompiles m op (handlerParams op) (handlerParams op ++ handlerOuts op) (handlerReserved op)

/-- The kernel compiles. -/
def kernelCompiles : Bool :=
  decide (kernelReserved op ++ kernelParams op ++ (kernelOuts op).map (·.name)).Nodup &&
    bodyCompiles m op (kernelParams op ++ (kernelOuts op).map (·.name))
      (kernelParams op ++ (kernelOuts op).map (·.name)) (kernelReserved op)

/-! ## What they compute -/

/-- What a function answers. -/
inductive Result (A : Arith)
  /-- The code of the guard that fired. -/
  | trap (code : Nat)
  /-- What is pushed, or written, for each output; nothing for a variadic one, whose slots are on the stack already. -/
  | done (outs : List (Option A.Val))

section

variable (A : Arith)

/-- A variable with its type and value. -/
abbrev Binding (A : Arith) := String × Scalar × A.Val

def bindAll {A : Arith} (bs : List (Binding A)) (vars : Vars A) : Vars A :=
  bs.foldl (fun vars b => vars.set b.1 b.2.1 b.2.2) vars

/-- No variable. -/
def noVars : Vars A := fun _ => (.s4, A.const 0)

/-- A value in a variable of a type. -/
def bound (ty : Scalar) (name : String) (v : A.Val) : Binding A := (name, ty, A.cast ty v)

/-- The values of the inputs and operands, by their names. -/
abbrev Inputs := String → A.Val

variable (inp : Inputs A)

/-- The type of a slot macro's variable. -/
def Spec.poppedScalar (m : Spec) (ty : ValueType) : Scalar := (m.classScalar (slotClass ty)).getD (m.cScalar ty)

/-- The scalar of a decoded operand in the handler, which spells out the one of a memory operand. -/
def Spec.decodedScalar (m : Spec) (ty : ValueType) : Scalar := if ty = .memarg then .u8 else m.cScalar ty

def handlerBindings : List (Binding A) :=
  op.operands.map (fun od => bound A (m.decodedScalar od.ty) od.name (inp od.name)) ++
    (livePops op).map fun si => bound A (m.poppedScalar si.ty) si.name (inp si.name)

/-- The locals of the outputs, which hold what was there before. -/
def outBindings (held : String → A.Val) : List (Binding A) :=
  (op.stackOut.filter (·.hasLocal)).map fun so => bound A (m.cScalar so.ty) so.name (held so.name)

/-- The variables of the handler before its guards. -/
def handlerVars : Vars A := bindAll (handlerBindings m op A inp) (noVars A)

/-- The variables of the handler before its body. -/
def handlerStart (held : String → A.Val) : Vars A := bindAll (outBindings m op A held) (handlerVars m op A inp)

def kernelBindings : List (Binding A) :=
  op.stackIn.map (fun si => bound A (m.cScalar si.ty) si.name (inp si.name)) ++
    op.operands.map (fun od => bound A (m.cScalar od.ty) od.name (inp od.name)) ++
    (kernelOuts op).map fun so => bound A (m.cScalar so.ty) so.name (A.const 0)

/-- The variables of the kernel before its guards, and before its body. -/
def kernelStart : Vars A := bindAll (kernelBindings m op A inp) (noVars A)

/-- The code of the first guard that fires. -/
def firedGuard (vars : Vars A) : Option Nat :=
  (guards op).findSome? fun g =>
    (lowerGuard m op g.1).bind fun c => if A.truth (c.eval A vars) then some (m.errorCode g.2) else none

/-- The statements of the body. -/
def bodyText : List CStmt := (lowerStmts m op op.semBody).getD []

/-- What the handler pushes for an output. -/
def pushed (vars : Vars A) (so : StackParam) : Option A.Val :=
  if so.count.isSome then none else some (A.cast (m.poppedScalar so.ty) (vars so.pushedName).2)

/-- The handler; `none` when a loop of the body goes on for `n` rounds. -/
def handler (held junk : String → A.Val) (n : Nat) : Option (Result A) :=
  match firedGuard m op A (handlerVars m op A inp) with
  | some code => some (.trap code)
  | none =>
    (CStmt.runAll A junk n (bodyText m op) (handlerStart m op A inp held)).map fun vars =>
      .done (op.stackOut.map (pushed m A vars))

/-- The kernel. -/
def kernel (junk : String → A.Val) (n : Nat) : Option (Result A) :=
  match firedGuard m op A (kernelStart m op A inp) with
  | some code => some (.trap code)
  | none =>
    (CStmt.runAll A junk n (bodyText m op) (kernelStart m op A inp)).map fun vars =>
      .done (op.stackOut.map fun so => some (A.cast (m.cScalar so.ty) (vars so.name).2))

end

end Bbq.Opgen
