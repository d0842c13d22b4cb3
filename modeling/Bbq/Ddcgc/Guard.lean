import Bbq.Ddcgc.Emit
import Bbq.Ddcgc.Lists
import Bbq.Lib.Logged

/-!
# The guards of ddcgc

The `where` guards of rules, `is_pure_guard_expr` (`typecheck.cpp:1830-1881`), and what the code that `emit_expr` and
its hooks emit for a guard does when it runs (`emit_backend.cpp:284-548`, `c_backend.cpp:695-803, 1093-1160,
1274-1286`, `cpp_backend.cpp:293-350, 599-606, 700-707`).

* The context and the arena are what was done to them: a run of the code keeps a log of the blocks that were
  allocated, the writes to them, and the calls of functions that are not taken to be pure.
* What operators, predicates and constructors compute is a parameter, and so is what the checker records of the types:
  a guard declares no names, so equal expressions have equal types.
* A predicate is called by its name alone. Where an auxiliary, a `fun` or a dispatcher has the same name in the
  generated code, that is what is called.
* A list of C is its header; of `push` it matters here whether it allocates and writes (`push_pushed`).
-/

namespace Bbq.Ddcgc

open Bbq.Lib

/-- `Type`, as far as the emitters ask for it. -/
inductive GuardType
  | schema (schemaImport name : Name)
  | list (elems : List GuardType)
  | dest
  | tuple
  /-- A string or an identifier. -/
  | string
  | other

mutual

/-- `expr`. The forms that no guard may have are `other`. -/
inductive Guard
  | intLit (value : Int)
  | stringLit (value : List UInt8)
  | boolLit (value : Bool)
  | nilLit
  | ident (name : Name)
  | ternary (cond then_ else_ : Guard)
  | binOp (op : String) (left right : Guard)
  | unaryOp (op : String) (operand : Guard)
  | call (fn : Guard) (args : Guards)
  | fieldAcc (base : Guard) (field : Name)
  | indexAcc (base index : Guard)
  | tupleLit (elems : Guards)
  | listLit (elems : Guards)
  | destPattern (name : Name) (args : Guards)
  | other (site : Nat)

inductive Guards
  | nil
  | cons (head : Guard) (tail : Guards)

end

mutual

/-- `is_pure_guard_expr`. -/
def Guard.isPure (preds : List Name) : Guard → Bool
  | .intLit _ | .stringLit _ | .boolLit _ | .nilLit | .ident _ => true
  | .ternary cond then_ else_ => cond.isPure preds && then_.isPure preds && else_.isPure preds
  | .binOp _ left right => left.isPure preds && right.isPure preds
  | .unaryOp _ operand => operand.isPure preds
  | .call fn args =>
    match fn with
    | .ident name => preds.contains name && args.arePure preds
    | _ => false
  | .fieldAcc base _ => base.isPure preds
  | .indexAcc base index => base.isPure preds && index.isPure preds
  | .tupleLit elems | .listLit elems => elems.arePure preds
  | .destPattern _ args => args.arePure preds
  | .other _ => false

def Guards.arePure (preds : List Name) : Guards → Bool
  | .nil => true
  | .cons head tail => head.isPure preds && tail.arePure preds

end

/-! ## What is emitted -/

/-- A rule file, as far as `emit_expr` reads it. -/
structure GuardFile where
  compilerPrefix : String
  auxiliaries : List Name
  predicates : List Name
  funs : List Name
  /-- The variants of the destinations and sums, with the number of their fields. -/
  variants : List (Name × Nat)
  /-- The sums that have rules, and so a dispatcher. -/
  sums : List Name
  schemas : Schemas
  /-- `expr_types`. -/
  types : Guard → Option GuardType

namespace GuardFile

variable (file : GuardFile) (lang : Lang)

/-- What a function of the rule file is called in the generated code. -/
def symbol (name : Name) : String :=
  match lang with
  | .c => file.compilerPrefix ++ "_" ++ name
  | .cpp => name

/-- The functions that are not taken to be pure: auxiliaries, funs and dispatchers. -/
def effectful : List String :=
  (file.auxiliaries ++ file.funs ++ file.sums.map fun sum => "compile_" ++ sum).map (file.symbol lang)

/-- `is_zero_arg_dest_variant`. -/
def isZeroArgDestVariant (name : Name) : Bool :=
  match file.variants.find? fun v => v.1 == name with
  | some v => v.2 == 0
  | none => false

/-- An identifier that is emitted as a call of a constructor. -/
def isConstructor (name : Name) : Bool :=
  file.isZeroArgDestVariant name &&
    match file.types (.ident name) with
    | some .dest | none => true
    | some _ => false

/-- The schema that an identifier is an enum value of. -/
def identEnum (name : Name) : Option (Name × Name) :=
  match file.types (.ident name) with
  | some (.schema imp sum) =>
    match file.schemas imp with
    | some schema => if schema.enumSums sum && (schema.sumConstructors sum).contains name then some (imp, sum) else none
    | none => none
  | _ => none

/-- A field access that stands for an enum value of a module. -/
def fieldEnum (base : Guard) (field : Name) : Option (Name × Name) :=
  match base, file.types (.fieldAcc base field) with
  | .ident module, some (.schema _ sum) => if (file.schemas module).isSome then some (module, sum) else none
  | _, _ => none

/-- `emit_seq_field_acc` finds a sequence. -/
def isSeqField (base : Guard) (field : Name) : Bool :=
  match file.types base with
  | some (.schema imp name) =>
    match file.schemas imp with
    | some schema =>
      let matched := match schema.constructors name with
        | some k => k.field field
        | none => (schema.sumConstructors name).findSome? fun c => (schema.constructors c).bind fun k => k.field field
      (matched.map Field.flag) == some .sequence
    | none => false
  | _ => false

def isTuple (e : Guard) : Bool :=
  match file.types e with
  | some .tuple => true
  | _ => false

def isList (e : Guard) : Bool :=
  match file.types e with
  | some (.list _) => true
  | _ => false

/-- A list whose elements have a type. -/
def hasElems (e : Guard) : Bool :=
  match file.types e with
  | some (.list (_ :: _)) => true
  | _ => false

def isString (e : Guard) : Bool :=
  match file.types e with
  | some .string => true
  | _ => false

/-- `both_strings`. -/
def bothStrings (left right : Guard) : Bool := file.isString left && file.isString right

end GuardFile

/-! ## What it does -/

/-- What is done to the context and the arena. -/
inductive Effect
  | alloc
  | write
  | called (symbol : String)
  | other (site : Nat)
  deriving DecidableEq

/-- What the code computes. -/
structure Operations (V : Type) where
  int : Int → V
  string : List UInt8 → V
  bool : Bool → V
  null : V
  enum : Name → Name → Name → V
  truth : V → Bool
  /-- `==`, of two pointers. -/
  same : V → V → Bool
  /-- `strcmp` gives 0. -/
  sameText : V → V → Bool
  binary : String → V → V → V
  unary : String → V → V
  field : Name → V → V
  index : V → V → V
  tuple : List V → V
  /-- A `std::vector`, and `_ddcgc_concat`. -/
  vector : List V → V
  vectorConcat : V → V → V
  /-- A list of C. -/
  header : V → CList
  ofHeader : CList → V
  /-- `base->field_count`. -/
  seqCount : Name → V → Nat
  /-- A call of what is no function of the file. -/
  apply : V → List V → V
  /-- A predicate, or a constructor. -/
  answer : String → List V → V
  effectful : String → List V → List Effect → V

namespace CList

/-- The header that `_push` gives, in the block `fresh` if it takes one, and what it does. -/
def pushed (fresh : Nat) (a : CList) : CList × List Effect :=
  if a.oom then (a, [])
  else if a.capacity ≤ a.count then
    if intMax / 2 < a.capacity then ({ a with oom := true }, [])
    else ({ a with data := some fresh, count := a.count + 1, capacity := nextCapacity a.capacity }, [.write, .alloc])
  else ({ a with count := a.count + 1 }, [.write])

/-- `push` is what `pushed` says: it gives that header, and writes nothing where that has no effect. -/
theorem push_pushed {E : Type} {junk : Nat → Nat → E} {h h' : Blocks E} {a a' : CList} {v : E}
    (hpush : push junk h a v = some (h', a')) :
    (a.pushed h.length).1 = a' ∧ ((a.pushed h.length).2 = [] → h' = h) := by
  have hstore : ∀ {h h' : Blocks E} {a a' : CList}, store h a v = some (h', a') → a' = { a with count := a.count + 1 } := by
    intro h h' a a' hstore
    obtain ⟨d, -, hstore⟩ := Option.bind_eq_some_iff.mp hstore
    obtain ⟨block, -, hstore⟩ := Option.bind_eq_some_iff.mp hstore
    split at hstore
    · exact (Prod.mk.inj (Option.some.inj hstore)).2.symm
    · exact absurd hstore nofun
  unfold push at hpush
  unfold pushed
  by_cases hoom : a.oom = true
  · rw [if_pos hoom] at hpush ⊢
    obtain ⟨rfl, rfl⟩ := Prod.mk.inj (Option.some.inj hpush)
    exact ⟨rfl, fun _ => rfl⟩
  · rw [if_neg hoom] at hpush ⊢
    by_cases hfull : a.capacity ≤ a.count
    · rw [if_pos hfull] at hpush ⊢
      by_cases hlarge : intMax / 2 < a.capacity
      · rw [if_pos hlarge] at hpush ⊢
        obtain ⟨rfl, rfl⟩ := Prod.mk.inj (Option.some.inj hpush)
        exact ⟨rfl, fun _ => rfl⟩
      · rw [if_neg hlarge] at hpush ⊢
        obtain ⟨kept, -, hpush⟩ := Option.bind_eq_some_iff.mp hpush
        exact ⟨(hstore hpush).symm, nofun⟩
    · rw [if_neg hfull] at hpush ⊢
      exact ⟨(hstore hpush).symm, nofun⟩

def pushLog (a : CList) : Logged Effect CList := fun log =>
  ((a.pushed log.length).1, (a.pushed log.length).2 ++ log)

/-- `_concat`, of a right operand of `left` elements. -/
def concatFromLog : Nat → CList → Logged Effect CList
  | 0, a => .value a
  | left + 1, a => (pushLog a).andThen (concatFromLog left)

def concatLog (a b : CList) : Logged Effect CList :=
  (concatFromLog b.count a).andThen fun a => .value (if b.oom then { a with oom := true } else a)

/-- `_from_arr`. -/
def fromArrLog (n : Nat) : Logged Effect CList := fun log =>
  if n = 0 then (make, log)
  else ({ data := some log.length, count := n, capacity := n, oom := false }, .write :: .alloc :: log)

end CList

section Run

variable {V : Type} (file : GuardFile) (ops : Operations V) (env : Name → V) (lang : Lang)

/-- A call of a function of the generated code. -/
def callLog (symbol : String) (args : List V) : Logged Effect V := fun log =>
  if symbol ∈ file.effectful lang then (ops.effectful symbol args log, .called symbol :: log)
  else (ops.answer symbol args, log)

/-- `(l == r) || (l && r && strcmp(l, r) == 0)`, with the operands spelled out each time. -/
def strcmpLog (negated : Bool) (left right : Logged Effect V) : Logged Effect V :=
  left.andThen fun a => right.andThen fun b =>
    if ops.same a b then .value (ops.bool (!negated))
    else left.andThen fun a =>
      if ops.truth a then right.andThen fun b =>
        if ops.truth b then left.andThen fun a => right.andThen fun b =>
          .value (ops.bool (ops.sameText a b != negated))
        else .value (ops.bool negated)
      else .value (ops.bool negated)

mutual

/-- The emitted code of a guard runs, in one of the languages. -/
def Guard.run : Guard → Logged Effect V
  | .intLit n => .value (ops.int n)
  | .stringLit s => .value (ops.string s)
  | .boolLit b => .value (ops.bool b)
  | .nilLit => .value ops.null
  | .ident x =>
    if file.isConstructor x then callLog file ops lang x []
    else .value ((file.identEnum x).elim (env x) fun (module, sum) => ops.enum module sum x)
  | .ternary cond then_ else_ => cond.run.andThen fun v => if ops.truth v then then_.run else else_.run
  | .binOp op left right =>
    if op = "+" ∧ file.isList (.binOp op left right) then
      match lang with
      | .cpp => left.run.andThen fun a => right.run.andThen fun b => .value (ops.vectorConcat a b)
      | .c =>
        if file.hasElems (.binOp op left right) then
          left.run.andThen fun a => right.run.andThen fun b =>
            (CList.concatLog (ops.header a) (ops.header b)).andThen fun c => .value (ops.ofHeader c)
        else left.run
    else if lang = .c ∧ (op = "==" ∨ op = "!=") ∧ file.bothStrings left right then
      strcmpLog ops (op == "!=") left.run right.run
    else if op = "and" then
      left.run.andThen fun a =>
        if ops.truth a then right.run.andThen fun b => .value (ops.bool (ops.truth b)) else .value (ops.bool false)
    else if op = "or" then
      left.run.andThen fun a =>
        if ops.truth a then .value (ops.bool true) else right.run.andThen fun b => .value (ops.bool (ops.truth b))
    else left.run.andThen fun a => right.run.andThen fun b => .value (ops.binary op a b)
  | .unaryOp op operand => operand.run.andThen fun v => .value (ops.unary op v)
  | .call fn args =>
    match fn, lang with
    | .ident x, .c =>
      if (file.auxiliaries ++ file.predicates ++ file.funs).contains x then
        args.run.andThen (callLog file ops lang (file.symbol lang x))
      else if file.variants.any fun v => v.1 == x then args.run.andThen (callLog file ops lang x)
      else args.run.andThen fun vs => .value (ops.apply (env x) vs)
    | .ident x, .cpp =>
      -- the name of a constructor is emitted as a call of it
      if file.isZeroArgDestVariant x then
        (callLog file ops lang x []).andThen fun f => args.run.andThen fun vs => .value (ops.apply f vs)
      else args.run.andThen (callLog file ops lang (file.symbol lang x))
    | fn, _ => fn.run.andThen fun f => args.run.andThen fun vs => .value (ops.apply f vs)
  | .fieldAcc base field =>
    match file.fieldEnum base field with
    | some (module, sum) => .value (ops.enum module sum field)
    | none =>
      if lang = .c ∧ file.isSeqField base field then
        base.run.andThen fun _ => base.run.andThen fun v =>
          (CList.fromArrLog (ops.seqCount field v)).andThen fun a => .value (ops.ofHeader a)
      else base.run.andThen fun v => .value (ops.field field v)
  | .indexAcc base index => base.run.andThen fun a => index.run.andThen fun i => .value (ops.index a i)
  | .tupleLit elems =>
    if lang = .c ∧ !file.isTuple (.tupleLit elems) then .value ops.null
    else elems.run.andThen fun vs => .value (ops.tuple vs)
  | .listLit elems =>
    match lang with
    | .c =>
      if file.hasElems (.listLit elems) then (elems.push .make).andThen fun a => .value (ops.ofHeader a)
      else .value ops.null
    | .cpp => elems.run.andThen fun vs => .value (ops.vector vs)
  | .destPattern name args => args.run.andThen (callLog file ops lang name)
  | .other site => fun log => (ops.null, .other site :: log)

/-- Arguments. -/
def Guards.run : Guards → Logged Effect (List V)
  | .nil => .value []
  | .cons head tail => head.run.andThen fun v => tail.run.andThen fun vs => .value (v :: vs)

/-- The elements of a list literal of C. -/
def Guards.push : Guards → CList → Logged Effect CList
  | .nil, a => .value a
  | .cons head tail, a => head.run.andThen fun _ => (CList.pushLog a).andThen tail.push

end

end Run

end Bbq.Ddcgc
