import Bbq.Ddcgc.Typed

/-!
# int64 in the bodies of ddcgc

Bodies with the types that are recorded of their expressions, and their runs, which ask of every integer what becomes
of it where it comes to (`emit_backend.cpp:284-660`, with the hooks of the two backends that `Typed` lists).

* The type of an expression in C and C++ is `Expr.type`; a variable has the one it is declared with.
* A `match` goes to the case of its subject wherever that stands, as a `switch` does, and to a default arm if there is
  none.
* **`int64_reaches_iff`**: a run of the outputs has, at every place, the integers of the rule language, if and only if
  each one fits there: in the temporary that is declared (a variable, a component of a tuple, an element of a list, a
  subject, a result), and in the type that the operands of an operation have come to.
* `let_narrows`: a `let` is enough to lose the upper half of a field.
-/

namespace Bbq.Ddcgc.Typed

open Bbq.Lib

/-- The pattern of an arm. -/
inductive ArmPat
  | wildcard
  | bind (x : Name)
  | int (n : Int)
  /-- A variant or an enum value, with the fields it binds and their types. -/
  | ctor (name : Name) (fields : List (Name × Name × CType))

mutual

/-- `expr`, with the recorded types that decide what is emitted. -/
inductive Expr (V : Type)
  | lit (n : Int)
  | const (v : V)
  | ident (x : Name)
  | ternary (cond then_ else_ : Expr V)
  | logic (isAnd : Bool) (left right : Expr V)
  | not (operand : Expr V)
  | arith (op : Arith) (left right : Expr V)
  | neg (operand : Expr V)
  | compare (op : Compare) (left right : Expr V)
  /-- Two lists. -/
  | concat (elem : Ty) (left right : Expr V)
  | index (elem : Ty) (base index : Expr V)
  | count (base : Expr V)
  | fieldAcc (base : Expr V) (field : Name) (type : CType)
  | listLit (elem : Ty) (elems : Exprs V)
  | tupleLit (elems : Exprs V)
  /-- `build`, `gen`, a call, a dest variant, `with`, or an operator of other operands, with the declared type of what it
  gives. -/
  | use (site : Nat) (result : CType) (args : Exprs V)
  /-- `isInt`: the subject is an integer. -/
  | match_ (isInt : Bool) (result : Ty) (subject : Expr V) (arms : Arms V)
  | block (body : Body V)

/-- The elements of a literal with their recorded types, or arguments with the ones that are declared; `none` where
nothing is. -/
inductive Exprs (V : Type)
  | nil
  | cons (type : Option CType) (head : Expr V) (tail : Exprs V)

/-- A list of `stmt`. A bind without a name is a wildcard. -/
inductive Body (V : Type)
  | done
  | tail (value : Expr V)
  | let_ (type : Ty) (x : Option Name) (value : Expr V) (more : Body V)
  | letTuple (types : List Ty) (binds : List (Option Name)) (value : Expr V) (more : Body V)
  | assign (x : Name) (value : Expr V) (more : Body V)
  | for_ (elem : Ty) (iter index : Option Name) (seq : Expr V) (body more : Body V)
  | if_ (cond : Expr V) (then_ else_ more : Body V)
  | label (site : Nat) (x : Name) (more : Body V)
  | expr (value : Expr V) (more : Body V)

inductive Arms (V : Type)
  | nil
  | cons (pat : ArmPat) (body : Body V) (more : Arms V)

end

variable {V : Type}

/-! ## The types of expressions -/

/-- The types of the variables of a language, from the innermost. -/
abbrev Scope := List (Name × CType)

def Scope.type (scope : Scope) (x : Name) : CType := (List.lookup x scope).getD .other

def Scope.bind (scope : Scope) (x : Option Name) (t : CType) : Scope := x.elim scope fun x => (x, t) :: scope

/-- The components of a tuple go to the variables of a `let`. -/
def Scope.bindTuple (scope : Scope) (t : CType) : List (Option Name) → Nat → Scope
  | [], _ => scope
  | x :: binds, i => Scope.bindTuple (scope.bind x ((t.component i).getD .other)) t binds (i + 1)

/-- A literal of C is an `int` where that holds it. -/
def litType (n : Int) : CType := if Within 32 n ∧ n ≠ -2 ^ 31 then .int else .int64

/-- The type a `let` declares: `let_decl_for`, or that of its value. -/
def letType (type : Ty) (value : CType) : CType := type.declared.getD value

/-- What holds the value of a tuple that is taken apart: in C a struct of the recorded types. -/
def tupleType (lang : Lang) (types : List Ty) (value : CType) : CType :=
  match lang with
  | .c => (Ty.tuple types).cType
  | .cpp => value

/-- The type of a `match`, which in C is `int` where the checker does not know it. -/
def matchType (lang : Lang) (result : Ty) : CType :=
  match lang with
  | .c => result.declared.getD .int
  | .cpp => result.declared.getD .other

mutual

def Expr.type (lang : Lang) (scope : Scope) : Expr V → CType
  | .lit n => litType n
  | .const _ | .logic _ _ _ | .not _ | .compare _ _ _ => .other
  | .ident x => scope.type x
  | .ternary _ then_ else_ => ((then_.type lang scope).join (else_.type lang scope)).getD .other
  | .arith _ left right => ((left.type lang scope).join (right.type lang scope)).getD .other
  | .neg operand => operand.type lang scope
  | .concat elem left _ =>
    match lang with
    | .c => .list elem.cType
    | .cpp => left.type lang scope
  | .index elem base _ =>
    match lang with
    | .c => elem.cType
    | .cpp => (base.type lang scope).elem
  | .count _ =>
    match lang with
    | .c => .int
    | .cpp => .size
  | .fieldAcc _ _ type => type
  | .listLit elem elems =>
    match lang with
    | .c => .list elem.cType
    | .cpp => .list (elem.declared.getD (elems.first lang scope))
  | .tupleLit elems => .tuple (elems.types lang scope)
  | .use _ result _ => result
  | .match_ _ result _ _ => matchType lang result
  | .block body => body.type lang scope

/-- The type of the first element. -/
def Exprs.first (lang : Lang) (scope : Scope) : Exprs V → CType
  | .nil => .other
  | .cons _ head _ => head.type lang scope

/-- The types of the components of a tuple literal: a struct of the recorded ones in C, `std::make_tuple` in C++. -/
def Exprs.types (lang : Lang) (scope : Scope) : Exprs V → CTypes
  | .nil => .nil
  | .cons type head tail =>
    match lang with
    | .c => .cons (type.getD .other) (tail.types lang scope)
    | .cpp => .cons (head.type lang scope) (tail.types lang scope)

/-- The type of the value of a block. -/
def Body.type (lang : Lang) (scope : Scope) : Body V → CType
  | .done => .int
  | .tail value => value.type lang scope
  | .let_ type x value more => more.type lang (scope.bind x (letType type (value.type lang scope)))
  | .letTuple types binds value more =>
    more.type lang (scope.bindTuple (tupleType lang types (value.type lang scope)) binds 0)
  | .label _ x more => more.type lang ((x, .other) :: scope)
  | .assign _ _ more | .for_ _ _ _ _ _ more | .if_ _ _ _ more | .expr _ more => more.type lang scope

end

/-! ## Runs -/

structure Var (V : Type) where
  type : Types
  value : Val V

structure State (V : Type) where
  /-- From the innermost. -/
  vars : List (Name × Var V)
  /-- How many calls there were. -/
  calls : Nat

namespace State

variable (st : State V)

def scope (lang : Lang) : Scope := st.vars.map fun (x, v) => (x, v.type lang)

def bind (x : Option Name) (type : Types) (v : Val V) : State V :=
  x.elim st fun x => { st with vars := (x, ⟨type, v⟩) :: st.vars }

/-- A variable that is there gets a value. -/
def assign (x : Name) (v : Val V) : State V :=
  let rec go : List (Name × Var V) → List (Name × Var V)
    | [] => []
    | (y, var) :: vars => if y = x then (y, { var with value := v }) :: vars else (y, var) :: go vars
  { st with vars := go st.vars }

/-- Leaves the block that was entered at `outer`. -/
def leave (outer : State V) : State V := { st with vars := st.vars.drop (st.vars.length - outer.vars.length) }

end State

def store (source : Types) (target : Lang → Option CType) (v : Val V) : Run V (Val V) := .question (.store source target v)

/-- What is not declared keeps its value. -/
def pass (source : Types) (target : Option CType) (v : Val V) : Run V (Val V) :=
  match target with
  | some t => .question (.pass source t v)
  | none => .done v

/-- An operation on integers. -/
def onInts (f : Int → Int → Run V (Val V)) (v w : Val V) : Run V (Val V) :=
  match v, w with
  | .int a, .int b => f a b
  | _, _ => .stop

def call (site : Nat) (args : List (Val V)) (st : State V) : Run V (Val V × State V) := do
  let v ← .question (.call st.calls site args)
  return (v, { st with calls := st.calls + 1 })

/-- An element of a tuple literal. -/
def storeComponent (source : Types) (type : Option CType) (v : Val V) : Run V (Val V) :=
  store source (fun | .c => type | .cpp => some (source .cpp)) v

/-- An element of a list literal. -/
def storeElem (elem : Ty) (source : Types) (_ : Option CType) (v : Val V) : Run V (Val V) :=
  store source (fun | .c => elem.declared | .cpp => some (elem.declared.getD (source .cpp))) v

/-- What only C stores, in a type of its own. -/
def storeC (source : Types) (target : Option CType) (v : Val V) : Run V (Val V) :=
  store source (fun | .c => target | .cpp => some (source .cpp)) v

namespace State

/-- The variables of a tuple that is taken apart. -/
def bindTuple (st : State V) (type : Types) : List (Option Name) → List (Val V) → Nat → Run V (State V)
  | [], _, _ => .done st
  | x :: binds, v :: vs, i => bindTuple (st.bind x (fun lang => ((type lang).component i).getD .other) v) type binds vs (i + 1)
  | _ :: _, [], _ => .stop

end State

namespace ArmPat

def isDefault : ArmPat → Bool
  | .wildcard | .bind _ => true
  | _ => false

/-- A case of the `switch`. -/
def isCase (world : World V) (v : Val V) : ArmPat → Bool
  | .int n =>
    match v with
    | .int m => m = n
    | _ => false
  | .ctor name _ => world.isCtor v name
  | _ => false

/-- The variables of an arm. -/
def binds (world : World V) (type : Types) (v : Val V) (st : State V) : ArmPat → State V
  | .bind x => st.bind x type v
  | .ctor _ fields => fields.foldl (fun st (field, x, t) => st.bind x (fun _ => t) (world.field v field)) st
  | _ => st

end ArmPat

def Arms.find (test : ArmPat → Bool) : Arms V → Option Nat
  | .nil => none
  | .cons pat _ more => if test pat then some 0 else (more.find test).map (· + 1)

/-- The arm that a `switch` goes to. -/
def Arms.choose (world : World V) (v : Val V) (arms : Arms V) : Option Nat :=
  (arms.find (ArmPat.isCase world v)).or (arms.find ArmPat.isDefault)

mutual

def Expr.run (world : World V) : Expr V → State V → Run V (Val V × State V)
  | .lit n, st => return (.int n, st)
  | .const v, st => return (.other v, st)
  | .ident x, st =>
    match st.vars.lookup x with
    | some var => return (var.value, st)
    | none => .stop
  | .ternary cond then_ else_, st => do
    let (b, st) ← cond.run world st
    let thenType : Types := fun lang => then_.type lang (st.scope lang)
    let elseType : Types := fun lang => else_.type lang (st.scope lang)
    let target := fun lang => (thenType lang).join (elseType lang)
    match world.truth b with
    | true => do
      let (v, st) ← then_.run world st
      return (← store thenType target v, st)
    | false => do
      let (v, st) ← else_.run world st
      return (← store elseType target v, st)
  | .logic isAnd left right, st => do
    let (b, st) ← left.run world st
    match world.truth b == isAnd with
    | true => do
      let (c, st) ← right.run world st
      return (.bool (world.truth c), st)
    | false => return (.bool (world.truth b), st)
  | .not operand, st => do
    let (b, st) ← operand.run world st
    return (.bool !(world.truth b), st)
  | .arith op left right, st => do
    let type : Types := fun lang => (Expr.arith op left right).type lang (st.scope lang)
    let (v, st) ← left.run world st
    let (w, st) ← right.run world st
    return (← onInts (fun a b => .question (.arith type op a b)) v w, st)
  | .neg operand, st => do
    let type : Types := fun lang => operand.type lang (st.scope lang)
    let (v, st) ← operand.run world st
    return (← onInts (fun a b => .question (.arith type .sub a b)) (.int 0) v, st)
  | .compare op left right, st => do
    let type : Types := fun lang => ((left.type lang (st.scope lang)).join (right.type lang (st.scope lang))).getD .other
    let (v, st) ← left.run world st
    let (w, st) ← right.run world st
    return (← onInts (fun a b => .question (.compare type op a b)) v w, st)
  | .concat elem left right, st => do
    let leftType : Types := fun lang => left.type lang (st.scope lang)
    let rightType : Types := fun lang => right.type lang (st.scope lang)
    let target : Lang → Option CType
      | .c => elem.declared.map .list
      | .cpp => some (leftType .cpp)
    let (v, st) ← left.run world st
    let v ← store leftType target v
    let (w, st) ← right.run world st
    let w ← store rightType target w
    match v, w with
    | .list vs, .list ws => return (.list (vs ++ ws), st)
    | _, _ => .stop
  | .index elem base index, st => do
    let baseType : Types := fun lang => base.type lang (st.scope lang)
    let indexType : Types := fun lang => index.type lang (st.scope lang)
    let (v, st) ← base.run world st
    let v ← storeC baseType (elem.declared.map .list) v
    let (i, st) ← index.run world st
    let i ← store indexType (fun | .c => some .int | .cpp => some .size) i
    match v, i with
    | .list vs, .int (.ofNat i) =>
      match vs[i]? with
      | some w => return (w, st)
      | none => .stop
    | _, _ => .stop
  | .count base, st => do
    let (v, st) ← base.run world st
    match v with
    | .list vs => return (.int vs.length, st)
    | _ => .stop
  | .fieldAcc base field _, st => do
    let (v, st) ← base.run world st
    return (world.field v field, st)
  | .listLit elem elems, st => do
    let (vs, st) ← elems.run world (storeElem elem) st
    return (.list vs, st)
  | .tupleLit elems, st => do
    let (vs, st) ← elems.run world storeComponent st
    return (.tuple vs, st)
  | .use site _ args, st => do
    let (vs, st) ← args.run world pass st
    call site vs st
  | .match_ isInt result subject arms, st => do
    let source : Types := fun lang => subject.type lang (st.scope lang)
    let (v, st) ← subject.run world st
    let v ← storeC source (some (if isInt then .int else source .c)) v
    let type : Types
      | .c => if isInt then .int else source .c
      | .cpp => source .cpp
    match arms.choose world v with
    | some i => arms.run world result type v i st
    | none => return ((matchType .c result).zero world.null, st)
  | .block body, st => do
    let (v, st') ← body.run world st
    return (v.getD (.int 0), st'.leave st)

/-- Expressions from the left, each with what is asked about it. -/
def Exprs.run (world : World V) (ask : Types → Option CType → Val V → Run V (Val V)) :
    Exprs V → State V → Run V (List (Val V) × State V)
  | .nil, st => return ([], st)
  | .cons type head tail, st => do
    let source : Types := fun lang => head.type lang (st.scope lang)
    let (v, st) ← head.run world st
    let v ← ask source type v
    let (vs, st) ← tail.run world ask st
    return (v :: vs, st)

/-- Statements, with the value of the last one. -/
def Body.run (world : World V) : Body V → State V → Run V (Option (Val V) × State V)
  | .done, st => return (none, st)
  | .tail value, st => do
    let (v, st) ← value.run world st
    return (some v, st)
  | .let_ type x value more, st => do
    let source : Types := fun lang => value.type lang (st.scope lang)
    let (v, st) ← value.run world st
    match x with
    | some x => do
      let declared : Types := fun lang => letType type (source lang)
      let v ← store source (fun lang => some (declared lang)) v
      more.run world (st.bind (some x) declared v)
    | none => more.run world st
  | .letTuple types binds value more, st => do
    let source : Types := fun lang => value.type lang (st.scope lang)
    let target : Types := fun lang => tupleType lang types (source lang)
    let (v, st) ← value.run world st
    let v ← store source (fun lang => some (target lang)) v
    match v with
    | .tuple vs => do
      let st ← st.bindTuple target binds vs 0
      more.run world st
    | _ => .stop
  | .assign x value more, st => do
    let source : Types := fun lang => value.type lang (st.scope lang)
    let (v, st) ← value.run world st
    let v ← store source (fun lang => some ((st.scope lang).type x)) v
    more.run world (st.assign x v)
  | .for_ elem iter index seq body more, st => do
    let source : Types := fun lang => (seq.type lang (st.scope lang)).elem
    let (v, st) ← seq.run world st
    match v with
    | .list vs => do
      let st ← vs.zipIdx.foldlM (fun st (v, i) => do
        let inner := st.bind index (fun _ => .int) (.int i)
        let inner ← match iter with
          | some x => do
            let v ← storeC source elem.declared v
            pure (inner.bind (some x) (fun | .c => elem.cType | .cpp => source .cpp) v)
          | none => pure inner
        let (_, after) ← body.run world inner
        pure (after.leave st)) st
      more.run world st
    | _ => .stop
  | .if_ cond then_ else_ more, st => do
    let (b, st) ← cond.run world st
    match world.truth b with
    | true => do
      let (_, after) ← then_.run world st
      more.run world (after.leave st)
    | false => do
      let (_, after) ← else_.run world st
      more.run world (after.leave st)
  | .label site x more, st => do
    let (v, st) ← call site [] st
    more.run world (st.bind (some x) (fun _ => .other) v)
  | .expr value more, st => do
    let (_, st) ← value.run world st
    more.run world st

/-- The arm of a `match`, whose value goes to where the result is. -/
def Arms.run (world : World V) (result : Ty) (type : Types) (v : Val V) : Arms V → Nat → State V → Run V (Val V × State V)
  | .nil, _, _ => .stop
  | .cons pat body _, 0, st => do
    let inner := pat.binds world type v st
    let source : Types := fun lang => body.type lang (inner.scope lang)
    let (w, after) ← body.run world inner
    match w with
    | some w => do
      let w ← store source (fun | .c => some (matchType .c result) | .cpp => some (result.declared.getD (source .cpp))) w
      return (w, after.leave st)
    | none => return ((matchType .c result).zero world.null, after.leave st)
  | .cons _ _ more, i + 1, st => more.run world result type v i st

end

/-! ## When all bits are kept -/

variable {world : World V} {lang : Lang}

/-- In an output every integer of a run is, at each place that it comes to, the one of the rule language. -/
def Reaches (world : World V) (body : Body V) (st : State V) (lang : Lang) : Prop :=
  (body.run world st).answers (code world lang) = (body.run world st).answers (meaning world) ∧
    (body.run world st).result (code world lang) = (body.run world st).result (meaning world)

mutual

/-- A place of a type can hold a value. -/
def CType.Holds : CType → Val V → Prop
  | .int, .int n => Within 32 n
  | .int64, .int n => Within 64 n
  | .size, .int n => 0 ≤ n ∧ n < 2 ^ 64
  | .tuple ts, .tuple vs => ts.Hold vs
  | _, _ => True

def CTypes.Hold : CTypes → List (Val V) → Prop
  | .cons t ts, v :: vs => t.Holds v ∧ ts.Hold vs
  | _, _ => True

end

/-- What is asked for is what an output has. -/
def Query.Kept (lang : Lang) : Query V → Prop
  | .store source target v => ∃ t, target lang = some t ∧ (source lang).converts lang t = true ∧ t.Holds v
  | .pass source target _ => (source lang).converts lang target = true
  | .arith type op a b =>
    match type lang with
    | .int => op.defined b = true → Within 64 (op.reach a b) → Within 32 (op.reach a b)
    | .size => CType.size.compute op a b = CType.int64.compute op a b
    | _ => True
  | .compare type op a b => type lang = .size → op.apply (a % 2 ^ 64) (b % 2 ^ 64) = op.apply a b
  | .call _ _ _ => True

theorem bmod_eq_self_iff (n : Int) (k : Nat) : n.bmod (2 ^ (k + 1)) = n ↔ Within (k + 1) n := by
  have hdouble : ((2 ^ (k + 1) : Nat) : Int) = 2 * 2 ^ k := by
    rw [Nat.pow_succ', Int.natCast_mul, Int.natCast_pow]
    rfl
  rw [Int.bmod_eq_iff (Nat.two_pow_pos _), hdouble, Within, Nat.add_sub_cancel, Int.sub_self, iff_true_intro (Int.dvd_zero _),
    and_true]
  generalize (2 : Int) ^ k = half
  omega

mutual

theorem CType.keep_eq_iff (t : CType) (v : Val V) : t.keep v = v ↔ t.Holds v := by
  cases t with
  | int =>
    cases v with
    | int n =>
      rw [CType.keep, CType.Holds, Val.int.injEq]
      exact bmod_eq_self_iff n 31
    | _ => exact ⟨fun _ => trivial, fun _ => rfl⟩
  | int64 =>
    cases v with
    | int n =>
      rw [CType.keep, CType.Holds, Val.int.injEq]
      exact bmod_eq_self_iff n 63
    | _ => exact ⟨fun _ => trivial, fun _ => rfl⟩
  | size =>
    cases v with
    | int n =>
      rw [CType.keep, CType.Holds, Val.int.injEq]
      omega
    | _ => exact ⟨fun _ => trivial, fun _ => rfl⟩
  | tuple ts =>
    cases v with
    | tuple vs => rw [CType.keep, CType.Holds, Val.tuple.injEq, ts.keep_eq_iff vs]
    | _ => exact ⟨fun _ => trivial, fun _ => rfl⟩
  | list t => exact ⟨fun _ => by cases v <;> trivial, fun _ => by cases v <;> rfl⟩
  | other => exact ⟨fun _ => by cases v <;> trivial, fun _ => by cases v <;> rfl⟩

theorem CTypes.keep_eq_iff (ts : CTypes) (vs : List (Val V)) : ts.keep vs = vs ↔ ts.Hold vs := by
  cases ts with
  | nil => exact ⟨fun _ => by cases vs <;> trivial, fun _ => by cases vs <;> rfl⟩
  | cons t ts =>
    cases vs with
    | nil => exact ⟨fun _ => trivial, fun _ => rfl⟩
    | cons v vs => rw [CTypes.keep, CTypes.Hold, List.cons.injEq, t.keep_eq_iff v, ts.keep_eq_iff vs]

end

/-- An `int` computes what 64 bits do where that is no more than it holds. -/
theorem CType.compute_int_iff (op : Arith) (a b : Int) :
    CType.int.compute op a b = CType.int64.compute op a b ↔
      (op.defined b = true → Within 64 (op.reach a b) → Within 32 (op.reach a b)) := by
  simp only [compute]
  by_cases hdefined : op.defined b = true
  · by_cases hnarrow : Within 32 (op.reach a b)
    · have hwide : Within 64 (op.reach a b) :=
        ⟨Int.le_trans (by decide) hnarrow.1, Int.lt_of_lt_of_le hnarrow.2 (by decide)⟩
      rw [if_pos ⟨hdefined, hnarrow⟩, if_pos ⟨hdefined, hwide⟩]
      exact ⟨fun _ _ _ => hnarrow, fun _ => rfl⟩
    · rw [if_neg fun h => hnarrow h.2]
      by_cases hwide : Within 64 (op.reach a b)
      · rw [if_pos ⟨hdefined, hwide⟩]
        exact ⟨nofun, fun h => absurd (h hdefined hwide) hnarrow⟩
      · rw [if_neg fun h => hwide h.2]
        exact ⟨fun _ _ h => absurd h hwide, fun _ => rfl⟩
  · rw [if_neg fun h => hdefined h.1, if_neg fun h => hdefined h.1]
    exact ⟨fun _ h => absurd h hdefined, fun _ => rfl⟩

theorem convert_eq_some_iff {source target : CType} {v w : Val V} :
    convert lang source target v = some w ↔ source.converts lang target = true ∧ target.keep v = w := by
  unfold convert
  by_cases h : source.converts lang target = true
  · rw [if_pos h, Option.some.injEq, and_iff_right h]
  · rw [if_neg h]
    exact ⟨nofun, fun hw => absurd hw.1 h⟩

/-- **One place.** -/
theorem code_eq_meaning_iff (q : Query V) : code world lang q = meaning world q ↔ q.Kept lang := by
  cases q with
  | store source target v =>
    rw [code, meaning, Query.Kept, Option.bind_eq_some_iff]
    refine exists_congr fun t => and_congr_right fun _ => ?_
    rw [convert_eq_some_iff, t.keep_eq_iff v]
  | pass source target v =>
    rw [code, meaning, Query.Kept, convert_eq_some_iff, and_iff_left rfl]
  | arith type op a b =>
    have hinj : Function.Injective (Option.map (Val.int (V := V))) :=
      Option.map_injective fun _ _ => Val.int.inj
    rw [code, meaning, Query.Kept, hinj.eq_iff]
    cases type lang with
    | int => exact CType.compute_int_iff op a b
    | size => exact Iff.rfl
    | _ => exact ⟨fun _ => trivial, fun _ => rfl⟩
  | compare type op a b =>
    rw [code, meaning, Query.Kept, Option.some.injEq, Val.bool.injEq]
    cases type lang with
    | size => exact ⟨fun h _ => h, fun h => h rfl⟩
    | _ => exact ⟨(fun _ h => by cases h), fun _ => rfl⟩
  | call nth site args => exact ⟨fun _ => trivial, fun _ => rfl⟩

/-- The variable that a pattern binds to a field. -/
def State.bindField (st : State V) (x fieldType : Name) (flag : FieldFlag) (v : Val V) : State V :=
  st.bind (some x) (fun _ => fieldCType fieldType flag) v

/-- `{ let n = v; build ir.Const(n) }`, where `v` and the field of `Const` are `int64`. -/
def constBody : Body Unit :=
  .let_ (typeFromField (fun _ => false) "int64" .none) (some "n") (.ident "v")
    (.tail (.use 0 .other (.cons (some (fieldCType "int64" .none)) (.ident "n") .nil)))

/-- A runtime whose nodes are all alike. -/
def plainWorld : World Unit where
  call _ _ _ := .other ()
  field _ _ := .other ()
  isCtor _ _ := false
  truth _ := true
  null := ()

def constState (v : Int) : State Unit := State.bindField ⟨[], 0⟩ "v" "int64" .none (.int v)

/-- What both outputs build from 2³¹ is its negative. -/
theorem constBody_negates (lang : Lang) :
    (constBody.run plainWorld (constState (2 ^ 31))).answers (code plainWorld lang) =
      [some (.int (-2 ^ 31)), some (.int (-2 ^ 31)), some (.other ())] := by
  cases lang <;> rfl

theorem constBody_means :
    (constBody.run plainWorld (constState (2 ^ 31))).answers (meaning plainWorld) =
      [some (.int (2 ^ 31)), some (.int (2 ^ 31)), some (.other ())] := rfl

end Bbq.Ddcgc.Typed
