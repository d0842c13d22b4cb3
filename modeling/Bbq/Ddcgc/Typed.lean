import Bbq.Ddcgc.Emit
import Bbq.Lib.Asking
import Mathlib.Algebra.Ring.Int.Defs
import Mathlib.Algebra.Ring.Nat

/-!
# The integers of a body, with their types

The bodies of rules and funs once more, with the types of the code that is emitted for them: the one that `check_file`
records of an expression decides how a temporary is declared (`c_backend.cpp:266-340, 742-803, 853-1086, 1133-1272`,
`cpp_backend.cpp:184-215, 300-350, 386-722`), the ones of C and C++ decide how its value is converted.

* A body asks (`Query`) when an integer comes to a place of the code: a temporary, an operation, an argument. The rule
  language answers by 64 bits (`meaning`); the outputs answer by the types of the place (`code`).
* The types of both outputs go along with a body, so that one computation is all three.
* What runs ends where C does not say how it goes on: an overflow, a division by zero, and an index out of range,
  which C reads as zero and C++ does not define. A type error of the generated code is an end too.
* A narrowing conversion of an initializer list of C++, which the standard refuses and compilers warn about, is taken
  to convert.
* `count` is an `int` in C, and without a sign in C++ (`size()`).
* How often the sequence of a `for` is evaluated, and what an assignment to the variable of a `for` of C++ changes, are
  left out here.
-/

namespace Bbq.Ddcgc.Typed

open Bbq.Lib

/-! ## Types -/

/-- `Type`, as the checker records it: it has one type of integers. -/
inductive Ty
  | int
  /-- A type without integers of its own. -/
  | named (name : Name)
  | list (elem : Ty)
  | tuple (elems : List Ty)
  | unknown

/-- `type_from_field`, by the name of the type and the flag of the field. -/
def typeFromField (isSchema : Name → Bool) (fieldType : Name) (flag : FieldFlag) : Ty :=
  let base :=
    if fieldType = "int" then .int
    else if fieldType = "int64" then .int
    else if fieldType = "string" ∨ fieldType = "bool" ∨ fieldType = "identifier" ∨ isSchema fieldType then
      .named fieldType
    else .unknown
  if flag = .sequence then .list base else base

mutual

/-- A type of the generated code, as far as it has integers. -/
inductive CType
  | int
  | int64
  /-- `size_t` -/
  | size
  | list (elem : CType)
  | tuple (elems : CTypes)
  | other
  deriving DecidableEq

inductive CTypes
  | nil
  | cons (head : CType) (tail : CTypes)
  deriving DecidableEq

end

/-- `c_for_field`, which C++ has too. -/
def fieldCType (fieldType : Name) (flag : FieldFlag) : CType :=
  let elem :=
    if fieldType = "int" then .int
    else if fieldType = "int64" then .int64
    else .other
  if flag = .sequence then .list elem else elem

mutual

def Ty.cType : Ty → CType
  | .int => .int
  | .named _ | .unknown => .other
  | .list elem => .list elem.cType
  | .tuple elems => .tuple (cTypes elems)

def cTypes : List Ty → CTypes
  | [] => .nil
  | t :: ts => .cons t.cType (cTypes ts)

end

/-- `c_for_type` and `cpp_for_type`. There is none for what the checker does not know. -/
def Ty.declared : Ty → Option CType
  | .unknown => none
  | t => some t.cType

namespace CTypes

def get : CTypes → Nat → Option CType
  | .nil, _ => none
  | .cons head _, 0 => some head
  | .cons _ tail, n + 1 => tail.get n

end CTypes

namespace CType

def isScalar : CType → Bool
  | .list _ | .tuple _ => false
  | _ => true

/-- The type of both branches of a ternary, or of both operands. -/
def join (s t : CType) : Option CType :=
  if s = t then some s
  else if s.isScalar && t.isScalar then
    if s = .size ∨ t = .size then some .size else if s = .other ∨ t = .other then some .other else some .int64
  else none

def elem : CType → CType
  | .list t => t
  | _ => .other

def component (t : CType) (i : Nat) : Option CType :=
  match t with
  | .tuple ts => ts.get i
  | _ => none

end CType

mutual

/-- Whether a value of a type may initialize another. A list is of the same type; so is a tuple of C, where
`std::tuple` converts each of its components. -/
def CType.converts (lang : Lang) : CType → CType → Bool
  | .list s, .list t => s = t
  | .tuple ss, .tuple ts =>
    match lang with
    | .c => ss = ts
    | .cpp => ss.convert lang ts
  | .list _, _ | _, .list _ | .tuple _, _ | _, .tuple _ => false
  | _, _ => true

def CTypes.convert (lang : Lang) : CTypes → CTypes → Bool
  | .nil, .nil => true
  | .cons s ss, .cons t ts => s.converts lang t && ss.convert lang ts
  | _, _ => false

end

/-! ## Values -/

inductive Val (V : Type)
  | int (n : Int)
  | bool (b : Bool)
  | list (elems : List (Val V))
  | tuple (elems : List (Val V))
  | other (v : V)

variable {V : Type}

mutual

/-- What of a value a place of a type keeps. -/
def CType.keep : CType → Val V → Val V
  | .int, .int n => .int (n.bmod (2 ^ 32))
  | .int64, .int n => .int (n.bmod (2 ^ 64))
  | .size, .int n => .int (n % 2 ^ 64)
  | .tuple ts, .tuple vs => .tuple (ts.keep vs)
  | _, v => v

def CTypes.keep : CTypes → List (Val V) → List (Val V)
  | .cons t ts, v :: vs => t.keep v :: ts.keep vs
  | _, vs => vs

end

mutual

/-- What a zero initializer gives. -/
def CType.zero (null : V) : CType → Val V
  | .int | .int64 | .size => .int 0
  | .list _ => .list []
  | .tuple ts => .tuple (ts.zeros null)
  | .other => .other null

def CTypes.zeros (null : V) : CTypes → List (Val V)
  | .nil => []
  | .cons t ts => t.zero null :: ts.zeros null

end

inductive Arith
  | add
  | sub
  | mul
  | div
  | mod
  deriving DecidableEq

namespace Arith

def apply (op : Arith) (a b : Int) : Int :=
  match op with
  | .add => a + b
  | .sub => a - b
  | .mul => a * b
  | .div => a.tdiv b
  | .mod => a.tmod b

/-- What a signed type has to hold. -/
def reach (op : Arith) (a b : Int) : Int :=
  match op with
  | .mod => a.tdiv b
  | op => op.apply a b

def defined (op : Arith) (b : Int) : Bool :=
  match op with
  | .div | .mod => b ≠ 0
  | _ => true

end Arith

inductive Compare
  | eq
  | ne
  | lt
  | gt
  | le
  | ge
  deriving DecidableEq

def Compare.apply (op : Compare) (a b : Int) : Bool :=
  match op with
  | .eq => a = b
  | .ne => a ≠ b
  | .lt => a < b
  | .gt => b < a
  | .le => a ≤ b
  | .ge => b ≤ a

/-- A signed type of `bits` bits holds `n`. -/
def Within (bits : Nat) (n : Int) : Prop := -2 ^ (bits - 1) ≤ n ∧ n < 2 ^ (bits - 1)

instance (bits : Nat) (n : Int) : Decidable (Within bits n) := inferInstanceAs (Decidable (_ ∧ _))

namespace CType

/-- An operation at a type. -/
def compute (t : CType) (op : Arith) (a b : Int) : Option Int :=
  match t with
  | .int => if op.defined b ∧ Within 32 (op.reach a b) then some (op.apply a b) else none
  | .size => if op.defined (b % 2 ^ 64) then some (op.apply (a % 2 ^ 64) (b % 2 ^ 64) % 2 ^ 64) else none
  | _ => if op.defined b ∧ Within 64 (op.reach a b) then some (op.apply a b) else none

def compare (t : CType) (op : Compare) (a b : Int) : Bool :=
  match t with
  | .size => op.apply (a % 2 ^ 64) (b % 2 ^ 64)
  | _ => op.apply a b

end CType

/-! ## What is asked -/

/-- The types that a place has in the outputs. -/
abbrev Types := Lang → CType

inductive Query (V : Type)
  /-- A temporary is initialized, if it has a type. -/
  | store (source : Types) (target : Lang → Option CType) (v : Val V)
  /-- An argument, or what a declaration of the rule file gives a type. -/
  | pass (source : Types) (target : CType) (v : Val V)
  | arith (type : Types) (op : Arith) (a b : Int)
  | compare (type : Types) (op : Compare) (a b : Int)
  /-- The `nth` call of a run. -/
  | call (nth site : Nat) (args : List (Val V))

/-- The code outside the rule file. -/
structure World (V : Type) where
  call : Nat → Nat → List (Val V) → Val V
  field : Val V → Name → Val V
  isCtor : Val V → Name → Bool
  truth : Val V → Bool
  null : V

/-- The rule language: an integer has 64 bits. -/
def meaning (world : World V) : Query V → Option (Val V)
  | .store _ _ v => some v
  | .pass _ target v => some (target.keep v)
  | .arith _ op a b => (CType.int64.compute op a b).map .int
  | .compare _ op a b => some (.bool (op.apply a b))
  | .call nth site args => some (world.call nth site args)

/-- A conversion of the generated code. -/
def convert (lang : Lang) (source target : CType) (v : Val V) : Option (Val V) :=
  if source.converts lang target then some (target.keep v) else none

def code (world : World V) (lang : Lang) : Query V → Option (Val V)
  | .store source target v => (target lang).bind fun t => convert lang (source lang) t v
  | .pass source target v => convert lang (source lang) target v
  | .arith type op a b => ((type lang).compute op a b).map .int
  | .compare type op a b => some (.bool ((type lang).compare op a b))
  | .call nth site args => some (world.call nth site args)

abbrev Run (V α : Type) := Asking (Query V) (Val V) α

end Bbq.Ddcgc.Typed
