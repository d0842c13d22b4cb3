import Bbq.Ddcgc.Match
import Bbq.Lib.Settle

/-!
# Bodies of ddcgc

The action language of rule and fun bodies (`ddcgc/grammar/ddcg.asdl`), its meaning, and what the code that
`emit_expr` and `emit_stmt` emit for it does when it runs (`emit_backend.cpp:284-660`, with the hooks of
`c_backend.cpp:690-1290` and `cpp_backend.cpp:293-722`).

* The types that `check_file` records decide the form of some code. A tree has them in its forms: `stringEq`,
  `seqField`, and the arguments of `build` that are unpacked.
* What a call yields may depend on anything: it is given for each occurrence of a call and each time it is
  evaluated. Operators, dest variants, predicates and accesses are functions of their operands.
* Operands are taken from the left. In C and C++ the order of arguments is open; it matters only to assignments in
  the blocks of arguments.
* A name is declared once in a block; a compiler refuses the file otherwise.
* A `for` of C++ binds its variable by reference. That an assignment to it changes the sequence, and what a loop does
  whose sequence is assigned to, is left out: `none`.
-/

namespace Bbq.Ddcgc

open Bbq.Lib

/-- The forms that evaluate their operands once, in both languages. -/
inductive Op
  | binOp (op : String)
  | unaryOp (op : String)
  | concat
  | index
  /-- `byPointer`: the base is a node. -/
  | fieldAcc (field : Name) (byPointer : Bool)
  | listLit
  | tupleLit
  | destPattern (name : Name)
  | pred (name : Name)
  | with_ (field : Name)

mutual

/-- `expr`. Calls of auxiliaries and funs and `gen` are `call`, known as `build` is by their occurrence. -/
inductive Expr
  | const (v : Value)
  | ident (x : Name)
  | ternary (cond then_ else_ : Expr)
  | logic (isAnd : Bool) (left right : Expr)
  | stringEq (negated : Bool) (left right : Expr)
  | strict (op : Op) (args : Exprs)
  | seqField (base : Expr) (field : Name)
  | call (site : Nat) (args : Exprs)
  | build (site : Nat) (args : Exprs)
  | match_ (m : MatchExpr) (zero : Value) (subject : Expr) (arms : Arms)
  | block (body : Body)

/-- Arguments. `unpacked`: a list for a sequence field of what is built. -/
inductive Exprs
  | nil
  | cons (unpacked : Bool) (head : Expr) (tail : Exprs)

/-- A list of `stmt`. A bind without a name is a wildcard. -/
inductive Body
  | done
  /-- The last statement is an expression. -/
  | tail (value : Expr)
  | let_ (x : Option Name) (value : Expr) (more : Body)
  | letTuple (binds : List (Option Name)) (value : Expr) (more : Body)
  | assign (x : Name) (value : Expr) (more : Body)
  | for_ (iter : Option Name) (index : Option (Option Name)) (seq : Expr) (body more : Body)
  | if_ (cond : Expr) (then_ else_ more : Body)
  | label (site : Nat) (x : Name) (more : Body)
  | expr (value : Expr) (more : Body)

/-- The bodies of the arms of a `match`. -/
inductive Arms
  | nil
  | cons (body : Body) (more : Arms)

end

/-! ## States -/

/-- The variables of a block; one that is not initialised has no value. -/
abbrev Frame := Name → Option (Option Value)

structure State where
  /-- From the innermost block. -/
  scopes : List Frame
  /-- The variables that were assigned to, with the depth of their blocks. -/
  assigned : List (Nat × Name)
  /-- How often each occurrence of a call or `build` was evaluated. -/
  count : Nat → Nat

namespace State

def lookup (st : State) (x : Name) : Option Value := (st.scopes.findSome? fun f => f x).join

def push (st : State) (env : Env) : State := { st with scopes := (fun x => (env x).map some) :: st.scopes }

def pop (st : State) : State := { st with scopes := st.scopes.tail }

/-- Declares a variable in the innermost block. -/
def set (st : State) (x : Name) (v : Option Value) : State :=
  match st.scopes with
  | f :: scopes => { st with scopes := Function.update f x (some v) :: scopes }
  | [] => st

def declare (st : State) (x : Option Name) : State := x.elim st fun x => st.set x none

def bind (st : State) (x : Option Name) (v : Value) : State := x.elim st fun x => st.set x (some v)

def assignIn (x : Name) (v : Value) : List Frame → Option (List Frame × Nat)
  | [] => none
  | f :: scopes =>
    if (f x).isSome then some (Function.update f x (some (some v)) :: scopes, scopes.length)
    else (assignIn x v scopes).map fun (scopes, depth) => (f :: scopes, depth)

def assign (st : State) (x : Name) (v : Value) : Option State :=
  (assignIn x v st.scopes).map fun (scopes, depth) =>
    { st with scopes := scopes, assigned := (depth, x) :: st.assigned }

/-- The variable of a name, with the depth of its block. -/
def place (x : Name) : List Frame → List (Nat × Name)
  | [] => []
  | f :: scopes => if (f x).isSome then [(scopes.length, x)] else place x scopes

/-- Whether one of `vars` was assigned to since `before`. -/
def touched (before after : State) (vars : List (Nat × Name)) : Bool :=
  (after.assigned.take (after.assigned.length - before.assigned.length)).any vars.contains

theorem bind_declare (st : State) (x : Option Name) (v : Value) : (st.declare x).bind x v = st.bind x v := by
  obtain ⟨scopes, assigned, count⟩ := st
  cases x with
  | none => rfl
  | some x =>
    cases scopes with
    | nil => rfl
    | cons f scopes => simp only [declare, bind, Option.elim_some, set, Function.update_idem]

end State

/-- What surrounds a run. -/
structure Runtime where
  /-- What each evaluation of a call or `build` yields. -/
  result : Nat → Nat → Value
  op : Op → List Value → Option Value
  /-- Whether two strings of C are the same pointer. -/
  samePtr : List UInt8 → List UInt8 → Bool
  samePtr_eq : ∀ s t, samePtr s t = true → s = t

def Runtime.call (rt : Runtime) (site : Nat) (st : State) : Value × State :=
  (rt.result site (st.count site), { st with count := Function.update st.count site (st.count site + 1) })

def Value.bool (b : Bool) : Value := .int (if b then 1 else 0)

def Value.truth : Value → Option Bool
  | .int n => some (n != 0)
  | _ => none

/-- Equality of strings and identifiers, one of which may be absent. -/
def Value.sameString : Value → Value → Option Bool
  | .string s, .string t => some (s == t)
  | _, _ => none

/-- `==` on the pointers. -/
def Runtime.samePointer (rt : Runtime) : Value → Value → Option Bool
  | .string (some s), .string (some t) => some (rt.samePtr s t)
  | .string none, .string none => some true
  | .string _, .string _ => some false
  | _, _ => none

/-- `_list_…_from_arr` of the elements of one sequence and the count of another. -/
def Value.fromArr : Value → Value → Option Value
  | .list _ elem, .list n _ => some (.list n elem)
  | _, _ => none

/-- A variable of each bind. The components are fields `_0`, `_1`, …. -/
def Runtime.bindTuple (rt : Runtime) (v : Value) : List (Option Name) → Nat → State → Option State
  | [], _, st => some st
  | x :: xs, i, st => (rt.op (.fieldAcc ("_" ++ toString i) false) [v]).bind fun w => rt.bindTuple v xs (i + 1) (st.bind x w)

/-- Rounds for the elements from the `i`-th. -/
def eachFrom (round : Nat → State → Option State) : Nat → Nat → State → Option State
  | 0, _, st => some st
  | left + 1, i, st => (round i st).bind (eachFrom round left (i + 1))

/-- The bodies of arms, up to the first that ends in an expression. -/
def runArms (arm : Nat → State → Option (Option Value × State)) : List (Nat × Env) → State → Option (Option Value × State)
  | [], st => some (none, st)
  | (i, env) :: more, st =>
    (arm i (st.push env)).bind fun (v, st) =>
      match v with
      | some v => some (some v, st.pop)
      | none => runArms arm more st.pop

/-! ## The meaning of a body -/

mutual

/-- The value of an expression. -/
def Expr.eval (rt : Runtime) : Expr → State → Option (Value × State)
  | .const v, st => some (v, st)
  | .ident x, st => (st.lookup x).map fun v => (v, st)
  | .ternary cond then_ else_, st =>
    (cond.eval rt st).bind fun (v, st) => v.truth.bind fun b => if b then then_.eval rt st else else_.eval rt st
  | .logic isAnd left right, st =>
    (left.eval rt st).bind fun (v, st) => v.truth.bind fun b => if b = isAnd then right.eval rt st else some (.bool b, st)
  | .stringEq negated left right, st =>
    (left.eval rt st).bind fun (v, st) => (right.eval rt st).bind fun (w, st) =>
      (v.sameString w).map fun same => (.bool (same != negated), st)
  | .strict op args, st => (args.eval rt st).bind fun (vs, st) => (rt.op op vs).map fun v => (v, st)
  | .seqField base field, st =>
    (base.eval rt st).bind fun (v, st) => (rt.op (.fieldAcc field true) [v]).bind fun w => (w.fromArr w).map fun w => (w, st)
  | .call site args, st | .build site args, st => (args.eval rt st).map fun (_, st) => rt.call site st
  | .match_ m zero subject arms, st =>
    (subject.eval rt st).bind fun (v, st) =>
      (runArms (arms.eval rt) (m.choice v).toList st).map fun (w, st) => (w.getD zero, st)
  | .block body, st => (body.eval rt (st.push .empty)).bind fun (v, st) => v.map fun v => (v, st.pop)

def Exprs.eval (rt : Runtime) : Exprs → State → Option (List Value × State)
  | .nil, st => some ([], st)
  | .cons _ head tail, st =>
    (head.eval rt st).bind fun (v, st) => (tail.eval rt st).map fun (vs, st) => (v :: vs, st)

/-- The value of the last statement, if it is an expression. -/
def Body.eval (rt : Runtime) : Body → State → Option (Option Value × State)
  | .done, st => some (none, st)
  | .tail value, st => (value.eval rt st).map fun (v, st) => (some v, st)
  | .let_ x value more, st => (value.eval rt st).bind fun (v, st) => more.eval rt (st.bind x v)
  | .letTuple binds value more, st =>
    (value.eval rt st).bind fun (v, st) => (rt.bindTuple v binds 0 st).bind (more.eval rt)
  | .assign x value more, st => (value.eval rt st).bind fun (v, st) => (st.assign x v).bind (more.eval rt)
  | .for_ iter index seq body more, st =>
    (seq.eval rt st).bind fun (v, st) =>
      match v with
      | .list n elem =>
        (eachFrom (fun i st => (body.eval rt (((st.push .empty).bind index.join (.int i)).bind iter (elem i))).map
          fun (_, st) => st.pop) n 0 st).bind (more.eval rt)
      | _ => none
  | .if_ cond then_ else_ more, st =>
    (cond.eval rt st).bind fun (v, st) => v.truth.bind fun b =>
      (if b then then_.eval rt (st.push .empty) else else_.eval rt (st.push .empty)).bind fun (_, st) => more.eval rt st.pop
  | .label site x more, st =>
    let (v, st) := rt.call site st
    more.eval rt (st.bind (some x) v)
  | .expr value more, st => (value.eval rt st).bind fun (_, st) => more.eval rt st

def Arms.eval (rt : Runtime) : Arms → Nat → State → Option (Option Value × State)
  | .nil, _, _ => none
  | .cons body _, 0, st => body.eval rt st
  | .cons _ more, i + 1, st => more.eval rt i st

end

/-! ## The emitted code -/

/-- What a sequence of a `for` in C++ refers to: nothing but a temporary (`none`), or what the variables hold that
are listed, or a node. -/
def Expr.refersTo (scopes : List Frame) : Expr → Option (List (Nat × Name))
  | .ident x => some (State.place x scopes)
  | .strict (.fieldAcc _ byPointer) (.cons _ base .nil) => if byPointer then some [] else base.refersTo scopes
  | .strict .index (.cons _ base (.cons _ _ .nil)) => base.refersTo scopes
  | .seqField _ _ => some []
  | .ternary _ then_ else_ => (then_.refersTo scopes).bind fun vs => (else_.refersTo scopes).map fun ws => vs ++ ws
  | _ => none

/-- The loops whose bound is evaluated before each round. -/
def rounds (bound : State → Option (Value × State)) (round : Nat → State → Option State) :
    Nat → Nat → State → Option State
  | 0, _, _ => none
  | fuel + 1, i, st =>
    (bound st).bind fun (v, st) =>
      match v with
      | .list n _ => if i < n then (round i st).bind (rounds bound round fuel (i + 1)) else some st
      | _ => none

/-- C always counts, C++ for the rounds of an indexed `for`. -/
def byIndex (lang : Lang) (index : Option (Option Name)) : Bool := lang = .c || index.isSome

/-- `(seq).data[i]`. -/
def Value.at (i : Nat) : Value → Option Value
  | .list n elem => if i < n then some (elem i) else none
  | _ => none

/-- The variables that a round of a `for` in C++ must not assign to for its references to hold, `none` where the
reference to an element outlives a temporary. -/
def references (lang : Lang) (iter : Option Name) (indexed : Bool) (seq : Expr) (scopes : List Frame) :
    Option (List (Nat × Name)) :=
  match lang, iter, seq.refersTo scopes with
  | .c, _, _ => some []
  | .cpp, some x, some vars => some ((scopes.length, x) :: vars)
  | .cpp, some _, none => if indexed then none else some []
  | .cpp, none, vars => some (if indexed then [] else vars.getD [])

def unlessTouched (vars : List (Nat × Name)) (round : State → Option State) (st : State) : Option State :=
  (round st).filter fun st' => !st.touched st' vars

def MatchExpr.ran (m : MatchExpr) (lang : Lang) (v : Value) : Option (List (Nat × Env)) :=
  match lang with
  | .c => m.runC v
  | .cpp => m.runCpp v

mutual

/-- `emit_expr`. -/
def Expr.run (rt : Runtime) (lang : Lang) (fuel : Nat) : Expr → State → Option (Value × State)
  | .const v, st => some (v, st)
  | .ident x, st => (st.lookup x).map fun v => (v, st)
  | .ternary cond then_ else_, st =>
    (cond.run rt lang fuel st).bind fun (v, st) => v.truth.bind fun b =>
      if b then then_.run rt lang fuel st else else_.run rt lang fuel st
  | .logic isAnd left right, st =>
    (left.run rt lang fuel st).bind fun (v, st) => v.truth.bind fun b =>
      if b = isAnd then right.run rt lang fuel st else some (.bool b, st)
  | .stringEq negated left right, st =>
    (left.run rt lang fuel st).bind fun (v, st) => (right.run rt lang fuel st).bind fun (w, st) =>
      match lang with
      | .cpp => (v.sameString w).map fun same => (.bool (same != negated), st)
      | .c =>
        -- ((l) == (r)) || ((l) && (r) && strcmp((l), (r)) == 0)
        (rt.samePointer v w).bind fun same =>
          if same then some (.bool (true != negated), st)
          else (left.run rt lang fuel st).bind fun (v, st) =>
            if v matches .string none then some (.bool (false != negated), st)
            else (right.run rt lang fuel st).bind fun (w, st) =>
              if w matches .string none then some (.bool (false != negated), st)
              else (left.run rt lang fuel st).bind fun (v, st) => (right.run rt lang fuel st).bind fun (w, st) =>
                (v.sameString w).map fun same => (.bool (same != negated), st)
  | .strict op args, st => (args.run rt lang fuel st).bind fun (vs, st) => (rt.op op vs).map fun v => (v, st)
  | .seqField base field, st =>
    (base.run rt lang fuel st).bind fun (v, st) => (rt.op (.fieldAcc field true) [v]).bind fun elems =>
      match lang with
      | .cpp => (elems.fromArr elems).map fun w => (w, st)
      | .c =>
        (base.run rt lang fuel st).bind fun (v, st) => (rt.op (.fieldAcc field true) [v]).bind fun counted =>
          (elems.fromArr counted).map fun w => (w, st)
  | .call site args, st => (args.run rt lang fuel st).map fun (_, st) => rt.call site st
  | .build site args, st => (args.unpack rt lang fuel st).map fun (_, st) => rt.call site st
  | .match_ m zero subject arms, st =>
    (subject.run rt lang fuel st).bind fun (v, st) => (m.ran lang v).bind fun ran =>
      (runArms (arms.run rt lang fuel) ran st).map fun (w, st) => (w.getD zero, st)
  | .block body, st => (body.run rt lang fuel (st.push .empty)).bind fun (v, st) => v.map fun v => (v, st.pop)

def Exprs.run (rt : Runtime) (lang : Lang) (fuel : Nat) : Exprs → State → Option (List Value × State)
  | .nil, st => some ([], st)
  | .cons _ head tail, st =>
    (head.run rt lang fuel st).bind fun (v, st) => (tail.run rt lang fuel st).map fun (vs, st) => (v :: vs, st)

/-- The arguments of a factory: C takes a list apart, `(e).data, (e).count`. -/
def Exprs.unpack (rt : Runtime) (lang : Lang) (fuel : Nat) : Exprs → State → Option (List Value × State)
  | .nil, st => some ([], st)
  | .cons unpacked head tail, st =>
    (head.run rt lang fuel st).bind fun (v, st) =>
      if lang = .c ∧ unpacked then
        (head.run rt lang fuel st).bind fun (w, st) => (v.fromArr w).bind fun v =>
          (tail.unpack rt lang fuel st).map fun (vs, st) => (v :: vs, st)
      else (tail.unpack rt lang fuel st).map fun (vs, st) => (v :: vs, st)

/-- `emit_stmts`. -/
def Body.run (rt : Runtime) (lang : Lang) (fuel : Nat) : Body → State → Option (Option Value × State)
  | .done, st => some (none, st)
  | .tail value, st => (value.run rt lang fuel st).map fun (v, st) => (some v, st)
  | .let_ x value more, st =>
    (value.run rt lang fuel (st.declare x)).bind fun (v, st) => more.run rt lang fuel (st.bind x v)
  | .letTuple binds value more, st =>
    -- C declares the names behind a temporary
    (value.run rt lang fuel (if lang = .cpp then binds.foldl State.declare st else st)).bind fun (v, st) =>
      (rt.bindTuple v binds 0 st).bind (more.run rt lang fuel)
  | .assign x value more, st =>
    (value.run rt lang fuel st).bind fun (v, st) => (st.assign x v).bind (more.run rt lang fuel)
  | .for_ iter index seq body more, st =>
    let round (i : Nat) (st : State) : Option State :=
      let st := (st.push .empty).bind index.join (.int i)
      (if iter.isSome then
        (seq.run rt lang fuel (st.declare iter)).bind fun (v, st) => (v.at i).map fun w => st.bind iter w
      else some st).bind fun st => (body.run rt lang fuel st).map fun (_, st) => st.pop
    (if byIndex lang index then
        rounds (seq.run rt lang fuel) (fun i st =>
          (references lang iter true seq st.scopes).bind fun vars => unlessTouched vars (round i) st) fuel 0 st
      else
        (seq.run rt lang fuel st).bind fun (v, st) =>
          match v with
          | .list n elem =>
            (references lang iter false seq st.scopes).bind fun vars =>
              eachFrom (fun i => unlessTouched vars fun st =>
                (body.run rt lang fuel ((st.push .empty).bind iter (elem i))).map
                  fun ((_, st) : Option Value × State) => st.pop) n 0 st
          | _ => none).bind (more.run rt lang fuel)
  | .if_ cond then_ else_ more, st =>
    (cond.run rt lang fuel st).bind fun (v, st) => v.truth.bind fun b =>
      (if b then then_.run rt lang fuel (st.push .empty) else else_.run rt lang fuel (st.push .empty)).bind
        fun (_, st) => more.run rt lang fuel st.pop
  | .label site x more, st =>
    let (v, st) := rt.call site st
    more.run rt lang fuel (st.bind (some x) v)
  | .expr value more, st => (value.run rt lang fuel st).bind fun (_, st) => more.run rt lang fuel st

def Arms.run (rt : Runtime) (lang : Lang) (fuel : Nat) : Arms → Nat → State → Option (Option Value × State)
  | .nil, _, _ => none
  | .cons body _, 0, st => body.run rt lang fuel st
  | .cons _ more, i + 1, st => more.run rt lang fuel i st

end

end Bbq.Ddcgc
