import Bbq.Opgen.Stencil

/-!
# The machine of the stencils

What a stencil does to the cache registers and the operand stack in memory, by the macros its text is made of.

* The operand stack is a list of values, the top one first. A slot holds the bits of its class: what else of it a whole
  slot moves, and the tag beside it, which a cached `word` loses, are left out. Two-slot rows are one value.
* Guards and body are a parameter, `Body`: natives are not part of the repository. They get the variables that the text
  mentions, the variadic operands in place, and the operand stack.
* `none` is an operand stack without the operand.
-/

namespace Bbq.Opgen

/-! ## Values -/

/-- A value on the operand stack. -/
inductive Entry
  | one (bits : BitVec 64)
  | wide (lo hi : BitVec 64)
  deriving DecidableEq, Repr

def Entry.lo : Entry → BitVec 64
  | .one b => b
  | .wide l _ => l

def Entry.hi : Entry → BitVec 64
  | .one _ => 0
  | .wide _ h => h

/-- The registers a value takes, from the first. -/
def Entry.words : Entry → List (BitVec 64)
  | .one b => [b]
  | .wide l h => [l, h]

def Entry.slots (e : Entry) : Nat := e.words.length

/-- The low bits, of a type of this width. -/
def narrow (width : Nat) (b : BitVec 64) : BitVec 64 := (b.setWidth width).setWidth 64

/-- What a read at a type takes of a slot. -/
def Scalar.load (s : Scalar) (e : Entry) : Entry :=
  match s with
  | .v128T => .wide e.lo e.hi
  | .anyT => e
  | s => .one (narrow (s.bits.getD 64) e.lo)

/-- The type of a C variable. -/
inductive CType
  | scalar (s : Scalar)
  /-- `slot_t`. -/
  | slot
  deriving DecidableEq, Repr

structure Var where
  ty : CType
  val : Entry

abbrev Env := String → Option Var

def Env.set (env : Env) (x : String) (v : Var) : Env := fun y => if y = x then some v else env y

def CType.isFloat : CType → Bool
  | .scalar s => s.isFloat
  | .slot => false

/-- The value of an integer type as a 64-bit one. -/
def Scalar.extend (s : Scalar) (b : BitVec 64) : BitVec 64 :=
  if CInt.signed s then (b.setWidth (CInt.width s)).signExtend 64 else narrow (CInt.width s) b

/-- `(dst)(x)` of a variable of type `src`. Conversions from and to another floating-point type are a parameter. -/
def convert (floats : Scalar → Scalar → BitVec 64 → BitVec 64) (src : CType) (dst : Scalar) (e : Entry) : Entry :=
  match src with
  | .slot => dst.load e
  | .scalar s =>
    if s.isInteger && dst.isInteger then .one (narrow (CInt.width dst) (s.extend e.lo))
    else if s = dst then dst.load e
    else if s.isFloat || dst.isFloat then .one (narrow (CInt.width dst) (floats s dst e.lo))
    else dst.load e

/-! ## Slot macros -/

section

variable (m : Spec)

/-- The scalar of `GPOP` and `GPUSH` of a class: that of its first row. A class without a row has no macros, and a
stencil that uses them does not compile. -/
def Spec.popScalar (t : ValueType) : Scalar := (m.classScalar (slotClass t)).getD (m.cScalar t)

/-- The row that `CACHE_GET` and `CACHE_PUT` of a class are left with: each row of the class defines them again. -/
def Spec.cacheRow (t : ValueType) : Jrow :=
  ((m.types.filter fun d => d.ty.cacheable && slotWidth d.ty != 2 && slotClass d.ty == slotClass t).getLast?.map
    fun d => m.jtype d.ty).getD (m.jtype t)

/-- The scalar that `CACHE_GET` of the class makes. -/
def Spec.getScalar (t : ValueType) : Scalar := (m.cacheRow t).scalar

/-- The scalar that `CACHE_PUT` of the class takes: a float by its bits, an integer as an unsigned one. -/
def Spec.putScalar (t : ValueType) : Scalar :=
  if (m.cacheRow t).scalar.isFloat then (m.cacheRow t).scalar else (m.cacheRow t).uscalar

/-- The variable of `GPOP_…(name)`. -/
def Spec.popped (t : ValueType) (e : Entry) : Var :=
  match slotClass t with
  | .word => ⟨.slot, e⟩
  | .any => ⟨.scalar .anyT, e⟩
  | _ => ⟨.scalar (m.popScalar t), (m.popScalar t).load e⟩

/-- The variable of `GPOP_ADDR` and `CACHE_GET_ADDR`. -/
def addrVar (is64 : Bool) (b : BitVec 64) : Var := ⟨.scalar .u8, .one (narrow (if is64 then 64 else 32) b)⟩

variable (floats : Scalar → Scalar → BitVec 64 → BitVec 64)

/-- The variable of a pair of registers. -/
def Spec.wideVar (t : ValueType) (lo hi : BitVec 64) : Var :=
  if t = .word then ⟨.slot, .wide lo hi⟩
  else ⟨.scalar (m.cScalar t), convert floats (.scalar .v128T) (m.cScalar t) (.wide lo hi)⟩

/-- The variable of one register. -/
def Spec.gotten (t : ValueType) (b : BitVec 64) : Var :=
  ⟨.scalar (m.cScalar t),
    convert floats (.scalar (m.getScalar t)) (m.cScalar t) ((m.getScalar t).load (.one b))⟩

end

/-! ## Bodies -/

inductive Exit (W : Type)
  /-- A guard fired, or a native trapped. -/
  | trap (world : W)
  /-- A native reported a status: on to `_HOLE_resync` from within the body. -/
  | resync (mem : List Entry) (world : W)
  /-- The end of the body, with what the variables hold. -/
  | done (vals : String → Entry) (mem : List Entry) (world : W)

/-- The exit with the operand stack changed. -/
def Exit.mapMem {W : Type} (f : List Entry → List Entry) : Exit W → Exit W
  | .trap w => .trap w
  | .resync mem w => .resync (f mem) w
  | .done vals mem w => .done vals (f mem) w

/-- What the text of an opcode does apart from the operand stack: expressions of the signature, guards and body. -/
structure Body (W : Type) where
  /-- The immediates. -/
  imm : Env
  /-- `addr(…)` of an operand. -/
  is64 : StackParam → Env → W → Bool
  /-- The number of variadic operands. -/
  count : StackParam → Env → W → Nat
  run : Env → (variadic : List (List Entry)) → List Entry → W → Exit W
  /-- The variadic results, which lie where a callee left them. -/
  exposed : StackParam → (String → Entry) → W → List Entry
  floats : Scalar → Scalar → BitVec 64 → BitVec 64

/-- Whether the body, a forwarded output or a guard mentions the name. -/
def Opcode.mentions (op : Opcode) (x : String) : Bool :=
  op.semBody.any (·.refsName x) || op.stackOut.any (fun so => so.forwardedName == x) ||
    op.errors.any fun e => e.condition.elim false fun c => c.refsName x

theorem Opcode.stackInLive_eq (op : Opcode) (si : StackParam) : op.stackInLive si = op.mentions si.name := rfl

/-- The variables that the text mentions. -/
def Env.live (op : Opcode) (env : Env) : Env := fun x => if op.mentions x then env x else none

/-! ## Runs -/

structure Machine (W : Type) where
  regs : Nat → BitVec 64
  mem : List Entry
  world : W

/-- Where a stencil goes on. -/
inductive Cont
  | next
  | resync
  deriving DecidableEq

inductive Outcome (W : Type)
  | trap (world : W)
  | cont (k : Cont) (machine : Machine W)

/-- What the reads of a stencil leave. -/
structure Operands where
  env : Env
  mem : List Entry
  variadic : List (List Entry)

section

variable (m : Spec) (op : VmOpcode) {W : Type} (B : Body W)

def popEntry (mem : List Entry) (k : Entry → List Entry → Option Operands) : Option Operands :=
  match mem with
  | [] => none
  | e :: mem => k e mem

def Operands.bind (o : Operands) (p : StackParam) (v : Var) : Operands := { o with env := o.env.set p.name v }

def Read.run (regs : Nat → BitVec 64) (w : W) (o : Operands) : Read → Option Operands
  | .variadic p =>
    let vc := B.count p (o.env.live op.toOpcode) w
    some { o with
      mem := if op.popsFirst then o.mem.drop vc else o.mem
      variadic := o.variadic ++ [o.mem.take vc] }
  | .getAddr p slot => some (o.bind p (addrVar (B.is64 p (o.env.live op.toOpcode) w) (regs slot)))
  | .getWide p slot => some (o.bind p (m.wideVar B.floats p.ty (regs slot) (regs (slot + 1))))
  | .getWord p slot => some (o.bind p ⟨.slot, .one (regs slot)⟩)
  | .get p slot => some (o.bind p (m.gotten B.floats p.ty (regs slot)))
  | .popAddr p => popEntry o.mem fun e mem => some ({ o with mem }.bind p (addrVar (B.is64 p (o.env.live op.toOpcode) w) e.lo))
  | .pop p => popEntry o.mem fun e mem => some ({ o with mem }.bind p (m.popped p.ty e))
  | .drop _ => popEntry o.mem fun _ mem => some { o with mem }

def runReads (regs : Nat → BitVec 64) (w : W) : List Read → Operands → Option Operands
  | [], o => some o
  | r :: rs, o => (r.run m op B regs w o).bind (runReads regs w rs)

def runMoves : List (Nat × Nat) → (Nat → BitVec 64) → Nat → BitVec 64
  | [], regs => regs
  | (dst, src) :: moves, regs => runMoves moves (Function.update regs dst (regs src))

/-- The type of the variable that a result is taken from. -/
def typeOfVar (env : Env) (x : String) : CType :=
  match env x with
  | some v => v.ty
  | none => if op.typeOfName x = .word then .slot else .scalar (m.cScalar (op.typeOfName x))

/-- The value of a result: a slot as it is, and else converted. -/
def resultEntry (env : Env) (vals : String → Entry) (p : StackParam) (dst : Scalar) : Entry :=
  match slotClass p.ty with
  | .word | .any => vals p.pushedName
  | _ => convert B.floats (typeOfVar m op env p.pushedName) dst (vals p.pushedName)

def Write.run (env : Env) (vals : String → Entry) (M : Machine W) : Write → Machine W
  | .expose p => { M with mem := B.exposed p vals M.world ++ M.mem }
  | .putWide p =>
    let v := vals p.pushedName
    { M with regs := Function.update (Function.update M.regs 0 v.lo) 1 v.hi }
  | .put p => { M with regs := Function.update M.regs 0 (resultEntry m op B env vals p (m.putScalar p.ty)).lo }
  | .push p => { M with mem := resultEntry m op B env vals p (m.popScalar p.ty) :: M.mem }

def runWrites (env : Env) (vals : String → Entry) : List Write → Machine W → Machine W
  | [], M => M
  | r :: rs, M => runWrites env vals rs (r.run m op B env vals M)

/-- `JV_SP -= …` of the variadic operands after the body, unless they are gone already. -/
def dropVariadic (variadic : List (List Entry)) (mem : List Entry) : List Entry :=
  if op.popsFirst then mem else variadic.foldl (fun mem vs => mem.drop vs.length) mem

/-- Guards and body, and what comes after them. -/
def Stencil.finish (S : Stencil) (regs : Nat → BitVec 64) (w : W) (o : Operands) : Outcome W :=
  match B.run (o.env.live op.toOpcode) o.variadic o.mem w with
  | .trap w => .trap w
  | .resync mem w => .cont .resync ⟨regs, mem, w⟩
  | .done vals mem w =>
    .cont .next (runWrites m op B (o.env.live op.toOpcode) vals S.writes
      ⟨runMoves S.moves regs, dropVariadic op o.variadic mem, w⟩)

def Stencil.run (S : Stencil) (M : Machine W) : Option (Outcome W) :=
  (runReads m op B M.regs M.world S.reads ⟨B.imm, M.mem, []⟩).map (S.finish m op B M.regs M.world)

end

/-! ## Representation -/

/-- The registers below `s` and the memory hold the operand stack. -/
def Represents (regs : Nat → BitVec 64) (s : Nat) (mem stack : List Entry) : Prop :=
  ∃ cached, stack = cached ++ mem ∧ cached.flatMap Entry.words = (List.range s).map regs

/-! ## Transitions -/

section

variable (m : Spec) (floats : Scalar → Scalar → BitVec 64 → BitVec 64) {W : Type}

/-- `gen_st_spill_…_slot` of a row: the deepest cached value goes to memory. -/
def spill (d : TypeDecl) (slot : Nat) (M : Machine W) : Machine W :=
  { M with
    mem :=
      (if slotWidth d.ty = 2 then
        convert floats (.scalar .v128T) (m.popScalar d.ty) (.wide (M.regs slot) (M.regs (slot + 1)))
      else
        convert floats (.scalar (m.getScalar d.ty)) (m.popScalar d.ty)
          ((m.getScalar d.ty).load (.one (M.regs slot)))) :: M.mem }

/-- `gen_st_fill_…_slot` of a row: the top of memory becomes the deepest cached value. -/
def fill (d : TypeDecl) (slot : Nat) (M : Machine W) : Option (Machine W) :=
  match M.mem with
  | [] => none
  | e :: mem =>
    let v := (m.popScalar d.ty).load e
    some { M with
      mem
      regs :=
        if slotWidth d.ty = 2 then Function.update (Function.update M.regs slot v.lo) (slot + 1) v.hi
        else
          Function.update M.regs slot
            (convert floats (.scalar (m.popScalar d.ty)) (m.putScalar d.ty) v).lo }

end

end Bbq.Opgen
