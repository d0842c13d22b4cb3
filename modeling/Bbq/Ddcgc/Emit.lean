import Bbq.Ddcgc.Pattern
import Mathlib.Data.List.Basic

/-!
# The code emitted for a pattern

`emit_match` and `field_check_expr` of the two backends (`c_backend.cpp:1297-1469`, `cpp_backend.cpp:724-915`), the
code they emit, and what it does.

* The emitters' own names `_n0`, `_n1`, … are apart from those of a rule file.
* `strcmp` reads its operands up to a zero byte and is undefined on a null pointer; `std::string` compares with
  the literal up to its zero byte.
* A nested constructor of another sum than the field's initialises a pointer from an incompatible one in C, which
  is not allowed there.
* **`exec_emitMatch`**: the code does what `readFields` says of the pattern: it reads the names of a constructor
  first, then its literals, and then its nested constructors, of which it leaves out those of other modules.
-/

namespace Bbq.Ddcgc

inductive Lang
  | c
  | cpp
  deriving DecidableEq

/-- A variable of the emitted code: `node`, or `_n<n>`. -/
inductive Var
  | node
  | cast (n : Nat)

/-- A comparison of a field. -/
inductive Test
  | int (n : Int)
  | string (s : List UInt8)
  | null
  | enum (ctor : Name)
  | hasValue

/-- Emitted code up to the end of its block. A body is known by its number. -/
inductive Code
  | declare (x : Name) (v : Var) (field : Name) (rest : Code)
  | ifCast (n : Nat) (v : Var) (field : Option Name) (module ctor : Name) (inside : Code)
  | ifAll (v : Var) (tests : List (Name × Test)) (inside : Code)
  | ifGuard (guard : Env → Bool) (inside : Code)
  | body (i : Nat) (returns breaks : Bool)

/-! ## What emitted code does -/

/-- A string of C. -/
def cString (s : List UInt8) : List UInt8 := s.takeWhile (· ≠ 0)

/-- A comparison; `none` where it is undefined. -/
def Test.eval (lang : Lang) (v : Value) : Test → Option Bool
  | int n => some (v.isInt n)
  | string s =>
    match lang, v with
    | .c, .string none => none
    | .c, .string (some t) => some (cString t == cString s)
    | .cpp, v => some (v.isString (cString s))
    | .c, _ => some false
  | null => some v.isNull
  | enum c => some (v.isEnum c)
  | hasValue => some (!v.isNull)

/-- `&&`. -/
def allTests (lang : Lang) (field : Name → Value) : List (Name × Test) → Option Bool
  | [] => some true
  | (name, test) :: tests =>
    (test.eval lang (field name)).bind fun ok => if ok then allTests lang field tests else some false

/-- How control leaves code. -/
inductive Exit
  | fell
  | broke
  | returned
  deriving DecidableEq

def Var.eval (node : Value) (casts : Nat → Value) : Var → Value
  | .node => node
  | .cast n => casts n

/-- What code does: how it is left, and the bodies it runs, with their bindings. -/
def Code.exec (lang : Lang) (node : Value) : Code → (Nat → Value) → Env → Option (Exit × List (Nat × Env))
  | declare x v name rest, casts, env =>
    match v.eval node casts with
    | .node _ _ field => rest.exec lang node casts (env.bind x (field name))
    | _ => none
  | ifCast n v name module ctor inside, casts, env =>
    let read : Option Value :=
      match name, v.eval node casts with
      | none, value => some value
      | some name, .node _ _ field => some (field name)
      | some _, _ => none
    read.bind fun value =>
      match value with
      | .node m c _ =>
        if m = module ∧ c = ctor then inside.exec lang node (Function.update casts n value) env else some (.fell, [])
      | _ => some (.fell, [])
  | ifAll v tests inside, casts, env =>
    match v.eval node casts with
    | .node _ _ field =>
      (allTests lang field tests).bind fun ok => if ok then inside.exec lang node casts env else some (.fell, [])
    | _ => none
  | ifGuard guard inside, casts, env => if guard env then inside.exec lang node casts env else some (.fell, [])
  | body i returns breaks, _, env =>
    some (if returns then .returned else if breaks then .broke else .fell, [(i, env)])

/-! ## `emit_match` -/

/-- The test of a field: `field_check_expr`, and the ones `emit_match` makes itself. -/
def fieldCheck (schema : Schema) (f : Option Field) : LeafPat → Option Test
  | .bind x => if enumValue schema f x then some (.enum x) else none
  | .wildcard => none
  | .nil => some .null
  | .int n => some (.int n)
  | .string s => some (.string s)

/-- `is_optional_schema`. -/
def optionalSchema (f : Option Field) : Bool :=
  match f with
  | some f => f.isSchema && f.flag == .optional
  | none => false

/-- `leaf_checks`. -/
def leafChecks (lang : Lang) (schema : Schema) (k : Constructor) : FieldPats → List (Name × Test)
  | .nil => []
  | .leaf name pat more =>
    match fieldCheck schema (k.field name) pat with
    | some test => (name, test) :: leafChecks lang schema k more
    | none => leafChecks lang schema k more
  | .nested name _ _ _ more =>
    if lang = .cpp ∧ optionalSchema (k.field name) then (name, .hasValue) :: leafChecks lang schema k more
    else leafChecks lang schema k more
  | .rest _ more => leafChecks lang schema k more

/-- The declarations of the names of a constructor pattern. -/
def declares (schema : Schema) (k : Constructor) (v : Var) (inside : Code) : FieldPats → Code
  | .nil => inside
  | .leaf name (.bind x) more =>
    if enumValue schema (k.field name) x then declares schema k v inside more
    else .declare x v name (declares schema k v inside more)
  | .leaf _ _ more | .nested _ _ _ _ more => declares schema k v inside more
  | .rest name more => .declare name v name (declares schema k v inside more)

/-- A constructor's part of `emit_match`, around the code `nested` for the nested constructors. `none` for a field
is the value `node` itself, which the C dispatcher's `switch` has looked at. -/
def openMatch (lang : Lang) (schema : Schema) (ctor : Name) (fields : FieldPats) (v : Var) (name : Option Name)
    (n : Nat) (nested : Var → Nat → Code) (unknown : Nat → Code) : Code :=
  match schema.constructors ctor with
  | none => unknown n
  | some k =>
    let inside (v : Var) (n : Nat) : Code :=
      let checks := leafChecks lang schema k fields
      let inner := nested v n
      declares schema k v (if checks = [] then inner else .ifAll v checks inner) fields
    match lang, v, name with
    | .c, .node, none => inside .node n
    | _, _, _ => .ifCast n v name schema.name ctor (inside (.cast n) (n + 1))

/-- The nested constructors of a pattern, in a variable `v`. -/
def emitNested (lang : Lang) (schema : Schema) (module : Name) :
    FieldPats → Var → Nat → (Nat → Code) → Code
  | .nil, _, n, inside => inside n
  | .leaf _ _ more, v, n, inside | .rest _ more, v, n, inside => emitNested lang schema module more v n inside
  | .nested name module' ctor sub more, v, n, inside =>
    if module' = module then
      let onward (n : Nat) : Code := emitNested lang schema module more v n inside
      openMatch lang schema ctor sub v (some name) n
        (fun v n => emitNested lang schema module' sub v n onward) onward
    else emitNested lang schema module more v n inside

/-- `emit_match` of the value `node`, around the code `inside`. -/
def emitMatch (lang : Lang) (schema : Schema) (module ctor : Name) (fields : FieldPats) (inside : Code) : Code :=
  openMatch lang schema ctor fields .node none 0
    (fun v n => emitNested lang schema module fields v n fun _ => inside) fun _ => inside

/-! ## How emitted code reads a pattern -/

/-- The names of a constructor pattern. -/
def declared (schema : Schema) (k : Constructor) (field : Name → Value) : FieldPats → Env → Env
  | .nil, env => env
  | .leaf name (.bind x) more, env =>
    if enumValue schema (k.field name) x then declared schema k field more env
    else declared schema k field more (env.bind x (field name))
  | .leaf _ _ more, env | .nested _ _ _ _ more, env => declared schema k field more env
  | .rest name more, env => declared schema k field more (env.bind name (field name))

/-- The bindings that a test of a pattern ends with; `some none` where it fails, `none` where it is undefined. -/
abbrev Answer := Option (Option Env)

def Answer.andThen (a : Answer) (f : Env → Answer) : Answer :=
  a.bind fun
    | some env => f env
    | none => some none

/-- A constructor's names and literals, and what comes behind them. -/
def readSimple (lang : Lang) (schema : Schema) (k : Constructor) (fields : FieldPats) (field : Name → Value)
    (env : Env) : Answer :=
  (allTests lang field (leafChecks lang schema k fields)).map fun ok =>
    if ok then some (declared schema k field fields env) else none

/-- The nested constructors of a pattern. -/
def readNested (lang : Lang) (schema : Schema) (module : Name) : FieldPats → (Name → Value) → Env → Answer
  | .nil, _, env => some (some env)
  | .leaf _ _ more, field, env | .rest _ more, field, env => readNested lang schema module more field env
  | .nested name module' ctor sub more, field, env =>
    if module' = module then
      let first : Answer :=
        match schema.constructors ctor, field name with
        | none, _ => some (some env)
        | some k, .node m c field' =>
          if m = schema.name ∧ c = ctor then
            (readSimple lang schema k sub field' env).andThen (readNested lang schema module' sub field')
          else some none
        | some _, _ => some none
      first.andThen (readNested lang schema module more field)
    else readNested lang schema module more field env

/-- The fields of a node, as the code for a constructor pattern reads them. -/
def readFields (lang : Lang) (schema : Schema) (module : Name) (k : Constructor) (fields : FieldPats)
    (field : Name → Value) (env : Env) : Answer :=
  (readSimple lang schema k fields field env).andThen (readNested lang schema module fields field)

/-! ## The code does what the reading says -/

/-- What code does that goes on with `f` after a test. -/
def Answer.run (a : Answer) (f : Env → Option (Exit × List (Nat × Env))) : Option (Exit × List (Nat × Env)) :=
  a.bind fun
    | some env => f env
    | none => some (.fell, [])

theorem run_andThen (a : Answer) (g : Env → Answer) (f : Env → Option (Exit × List (Nat × Env))) :
    (a.andThen g).run f = a.run fun env => (g env).run f := by
  match a with
  | none => rfl
  | some none => rfl
  | some (some env) => rfl

variable {lang : Lang} {schema : Schema} {node : Value} {k : Constructor} {v : Var} {casts : Nat → Value} {m c : Name}
  {field : Name → Value} {inside : Code}

theorem exec_declares (hv : v.eval node casts = .node m c field) (fields : FieldPats) (env : Env) :
    (declares schema k v inside fields).exec lang node casts env =
      inside.exec lang node casts (declared schema k field fields env) := by
  induction fields generalizing env with
  | nil => rfl
  | leaf name pat more ih =>
    cases pat with
    | bind x =>
      unfold declares declared
      split
      · exact ih env
      · simp only [Code.exec, hv]
        exact ih _
    | wildcard | nil | int | string => exact ih env
  | nested name module ctor sub more _ ih => exact ih env
  | rest name more ih =>
    simp only [declares, declared, Code.exec, hv]
    exact ih _

theorem exec_checks (hv : v.eval node casts = .node m c field) (checks : List (Name × Test)) (env : Env) :
    (if checks = [] then inside else .ifAll v checks inside).exec lang node casts env =
      (allTests lang field checks).bind fun ok =>
        if ok then inside.exec lang node casts env else some (.fell, []) := by
  split
  · next hnil =>
    rw [hnil]
    rfl
  · simp only [Code.exec, hv]

/-- The code inside a constructor's cast. -/
theorem exec_inside (hv : v.eval node casts = .node m c field) (fields : FieldPats) (env : Env) :
    (declares schema k v
        (if leafChecks lang schema k fields = [] then inside else .ifAll v (leafChecks lang schema k fields) inside)
        fields).exec lang node casts env =
      (readSimple lang schema k fields field env).run (inside.exec lang node casts) := by
  rw [exec_declares hv, exec_checks hv, readSimple]
  cases allTests lang field (leafChecks lang schema k fields) with
  | none => rfl
  | some ok =>
    cases ok with
    | true => rfl
    | false => rfl

/-- A variable that is declared before the `n`-th cast. -/
def Var.Before (n : Nat) : Var → Prop
  | .node => True
  | .cast j => j < n

theorem Var.Before.eval {n : Nat} (hn : v.Before n) {casts' : Nat → Value} (h : ∀ j < n, casts' j = casts j) :
    v.eval node casts' = v.eval node casts := by
  cases v with
  | node => rfl
  | cast j => exact h j hn

/-- **The nested constructors**: the casts come one inside the other, with the continuation innermost. -/
theorem exec_nested {module : Name} (fields : FieldPats) {n : Nat} {inside : Nat → Code} {env : Env}
    {f : Env → Option (Exit × List (Nat × Env))} (hv : v.eval node casts = .node m c field) (hn : v.Before n)
    (hf : ∀ n' casts' env', n ≤ n' → (∀ j < n, casts' j = casts j) →
      (inside n').exec lang node casts' env' = f env') :
    (emitNested lang schema module fields v n inside).exec lang node casts env =
      (readNested lang schema module fields field env).run f := by
  induction fields generalizing module v casts m c field n inside env f with
  | nil => exact hf n casts env (Nat.le_refl _) fun _ _ => rfl
  | leaf name pat more ih => exact ih hv hn hf
  | rest name more ih => exact ih hv hn hf
  | nested name module' ctor sub more ihsub ihmore =>
    unfold emitNested readNested
    split
    · -- what follows runs the same wherever the nested constructor has left the casts
      have honward : ∀ n' casts' env', n ≤ n' → (∀ j < n, casts' j = casts j) →
          (emitNested lang schema module more v n' inside).exec lang node casts' env' =
            (readNested lang schema module more field env').run f := by
        intro n' casts' env' hle hsame
        have hv' : v.eval node casts' = .node m c field := by rw [hn.eval hsame, hv]
        have hn' : v.Before n' := by
          cases v with
          | node => trivial
          | cast j => exact Nat.lt_of_lt_of_le hn hle
        refine ihmore hv' hn' fun n'' casts'' env'' hle' hsame' => ?_
        exact hf n'' casts'' env'' (Nat.le_trans hle hle')
          fun j hj => (hsame' j (Nat.lt_of_lt_of_le hj hle)).trans (hsame j hj)
      rw [run_andThen]
      unfold openMatch
      cases hk : schema.constructors ctor with
      | none => exact honward n casts env (Nat.le_refl _) fun _ _ => rfl
      | some k =>
        simp only [Code.exec, hv, Option.bind_some]
        cases hval : field name with
        | node m' c' field' =>
          dsimp only
          split
          · have hcast : (Var.cast n).eval node (Function.update casts n (.node m' c' field')) = .node m' c' field' :=
              Function.update_self ..
            rw [exec_inside hcast, run_andThen]
            congr 1
            funext env'
            refine ihsub hcast (Nat.lt_succ_self n) fun n' casts' env'' hle hsame => ?_
            refine honward n' casts' env'' (Nat.le_of_succ_le hle) fun j hj => ?_
            rw [hsame j (Nat.lt_succ_of_lt hj), Function.update_of_ne (Nat.ne_of_lt hj)]
          · rfl
        | null | int _ | string _ | enum _ | list _ _ | array _ | other _ => rfl
    · exact ihmore hv hn hf

/-- **`emit_match` of the node that is dispatched on.** C++ looks at its constructor, and C has done so. -/
theorem exec_emitMatch {module ctor : Name} {fields : FieldPats} {env : Env} (hk : schema.constructors ctor = some k)
    (hm : m = schema.name) (hc : lang = .cpp ∨ c = ctor)
    (hrun : ∀ casts' env', inside.exec lang (.node m c field) casts' env' =
      inside.exec lang (.node m c field) casts env') :
    (emitMatch lang schema module ctor fields inside).exec lang (.node m c field) casts env =
      if c = ctor then
        (readFields lang schema module k fields field env).run (inside.exec lang (.node m c field) casts)
      else some (.fell, []) := by
  unfold emitMatch openMatch
  rw [hk]
  cases lang with
  | c =>
    obtain rfl : c = ctor := hc.resolve_left nofun
    have hnode : Var.node.eval (.node m c field) casts = .node m c field := rfl
    simp only [if_true]
    rw [exec_inside hnode, readFields, run_andThen]
    congr 1
    funext env'
    exact exec_nested fields hnode trivial fun _ casts' env'' _ _ => hrun casts' env''
  | cpp =>
    simp only [Code.exec, Var.eval, Option.bind_some, hm, true_and]
    split
    · have hcast : (Var.cast 0).eval (.node schema.name c field)
          (Function.update casts 0 (.node schema.name c field)) = .node schema.name c field := by
        rw [Var.eval, Function.update_self]
      rw [exec_inside hcast, readFields, run_andThen]
      congr 1
      funext env'
      rw [hm] at hrun
      exact exec_nested fields hcast (Nat.lt_succ_self 0) fun _ casts' env'' _ _ => hrun casts' env''
    · rfl

/-! ## In C++ no test is undefined -/

theorem allTests_cpp (field : Name → Value) (tests : List (Name × Test)) :
    ∃ ok, allTests .cpp field tests = some ok := by
  induction tests with
  | nil => exact ⟨true, rfl⟩
  | cons t tests ih =>
    obtain ⟨name, test⟩ := t
    obtain ⟨ok, hok⟩ : ∃ ok, test.eval .cpp (field name) = some ok := by
      cases test with
      | string s => exact ⟨_, by rw [Test.eval]⟩
      | int | null | enum | hasValue => exact ⟨_, rfl⟩
    rw [allTests, hok, Option.bind_some]
    cases ok with
    | true => exact ih
    | false => exact ⟨false, rfl⟩

theorem andThen_defined {a : Answer} {f : Env → Answer} (ha : ∃ o, a = some o) (hf : ∀ env, ∃ o, f env = some o) :
    ∃ o, a.andThen f = some o := by
  obtain ⟨o, rfl⟩ := ha
  cases o with
  | none => exact ⟨none, rfl⟩
  | some env => exact hf env

theorem readSimple_cpp (schema : Schema) (k : Constructor) (fields : FieldPats) (field : Name → Value) (env : Env) :
    ∃ o, readSimple .cpp schema k fields field env = some o := by
  obtain ⟨ok, hok⟩ := allTests_cpp field (leafChecks .cpp schema k fields)
  exact ⟨_, by rw [readSimple, hok, Option.map_some]⟩

theorem readNested_cpp (schema : Schema) (module : Name) (fields : FieldPats) (field : Name → Value) (env : Env) :
    ∃ o, readNested .cpp schema module fields field env = some o := by
  induction fields generalizing module field env with
  | nil => exact ⟨_, rfl⟩
  | leaf name pat more ih => exact ih module field env
  | rest name more ih => exact ih module field env
  | nested name module' ctor sub more ihsub ihmore =>
    unfold readNested
    split
    · refine andThen_defined ?_ (ihmore module field)
      split
      · exact ⟨_, rfl⟩
      · split
        · exact andThen_defined (readSimple_cpp ..) (ihsub module' _)
        · exact ⟨_, rfl⟩
      · exact ⟨_, rfl⟩
    · exact ihmore module field env

theorem readFields_cpp (schema : Schema) (module : Name) (k : Constructor) (fields : FieldPats) (field : Name → Value)
    (env : Env) : ∃ o, readFields .cpp schema module k fields field env = some o :=
  andThen_defined (readSimple_cpp ..) (readNested_cpp _ _ _ _)

/-! ## Blocks one after the other -/

/-- Blocks one after the other. -/
def execAll (lang : Lang) (node : Value) : List Code → Option (Exit × List (Nat × Env))
  | [] => some (.fell, [])
  | code :: more =>
    (code.exec lang node (fun _ => .null) .empty).bind fun (exit, ran) =>
      if exit = .fell then (execAll lang node more).map fun (exit, ran') => (exit, ran ++ ran')
      else some (exit, ran)

/-- What a block does that runs a body, of which it is told whether it returns, or none. -/
def passed : Option (Nat × Bool × Env) → Exit × List (Nat × Env)
  | some (i, returns, env) => (if returns then .returned else .fell, [(i, env)])
  | none => (.fell, [])

/-- The first of the bodies that could be run. -/
def firstOf : List (Nat × Bool × Env) → Option (Nat × Env)
  | [] => none
  | (i, _, env) :: _ => some (i, env)

/-- One body is run: the first returns, or there is no other. -/
def OneBody : List (Nat × Bool × Env) → Prop
  | [] => True
  | (_, returns, _) :: more => returns = true ∨ more = []

/-- The bodies that are run: up to the first that returns. -/
def ranOf : List (Nat × Bool × Env) → List (Nat × Env)
  | [] => []
  | (i, returns, env) :: more => if returns then [(i, env)] else (i, env) :: ranOf more

theorem firstOf_ranOf {l : List (Nat × Bool × Env)} {choice : Option (Nat × Env)} (h : ranOf l = choice.toList) :
    choice = firstOf l := by
  match l, choice with
  | [], none => rfl
  | [], some _ => exact absurd h nofun
  | (i, returns, env) :: more, none =>
    unfold ranOf at h
    split at h
    · exact absurd h nofun
    · exact absurd h nofun
  | (i, returns, env) :: more, some x =>
    unfold ranOf at h
    split at h
    · exact congrArg some (List.cons.inj h).1.symm
    · exact congrArg some (List.cons.inj h).1.symm

theorem ranOf_iff (l : List (Nat × Bool × Env)) : ranOf l = (firstOf l).toList ↔ OneBody l := by
  match l with
  | [] => exact iff_of_true rfl trivial
  | (i, returns, env) :: more =>
    unfold ranOf firstOf OneBody
    cases returns with
    | true => exact iff_of_true rfl (.inl rfl)
    | false =>
      simp only [Bool.false_eq_true, if_false, Option.toList_some, List.cons.injEq, true_and, false_or]
      cases more with
      | nil => exact iff_of_true rfl rfl
      | cons x more =>
        refine iff_of_false (fun h => ?_) (List.cons_ne_nil _ _)
        have hnone : (none : Option (Nat × Env)) = firstOf (x :: more) := firstOf_ranOf h
        exact absurd hnone nofun

/-- **A chain of blocks** runs their bodies up to the first that returns. -/
theorem execAll_passed {α : Type} {l : List α} {code : α → Code} (pass : α → Option (Nat × Bool × Env))
    (h : ∀ x ∈ l, (code x).exec lang node (fun _ => .null) .empty = some (passed (pass x))) :
    execAll lang node (l.map code) =
      some (if (l.filterMap pass).any fun x => x.2.1 then .returned else .fell, ranOf (l.filterMap pass)) := by
  induction l with
  | nil => rfl
  | cons x l ih =>
    rw [List.forall_mem_cons] at h
    rw [List.map_cons, execAll, h.1, ih h.2, List.filterMap_cons]
    cases pass x with
    | none => rfl
    | some y =>
      obtain ⟨i, returns, env⟩ := y
      cases returns with
      | true => rfl
      | false => rfl

end Bbq.Ddcgc
