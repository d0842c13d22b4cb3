import Bbq.Ddcgc.Emit
import Mathlib.Data.List.TakeWhile

/-!
# `match` of ddcgc

`emit_match_expr` of the two backends (`c_backend.cpp:854-1083`, `cpp_backend.cpp:386-597`), with what
`infer_expr` and `check_pattern` ask of a `match` (`typecheck.cpp:1199-1331, 328-483`), and the meaning of a `match`:
the first arm that matches.

* A destination and a user sum are a sum of the schema of the module `""`.
* A variant's field of its own sum is a pointer, of which C and C++ bind what it points to.
* The constants of the generated code are numbered within their sums, and have names of their own.
* As for a rule, of an arm's body it matters whether it ends in an expression.

**`takesFirst_iff`**: both backends take the first arm that matches, exactly when their code compiles and the arm
that the subject's label leads to is read as it is written, has no default before it and is left by C++ as well.
-/

namespace Bbq.Ddcgc

/-- `match_arm`. -/
structure Arm where
  pat : Pattern
  /-- The body ends in an expression. -/
  returns : Bool

/-- The types of a subject that the backends know. -/
inductive SubjectType
  | dest (dests : Schema) (sum : Name)
  | enum (schema : Schema) (sum : Name)
  | schemaSum (schema : Schema) (sum : Name)
  | int

/-- The number of a constructor in a sum. -/
def Schema.tag (schema : Schema) (sum ctor : Name) : Int := ((schema.sumConstructors sum).idxOf ctor : Nat)

/-- The constructors of a sum are listed. -/
def Schema.Lists (schema : Schema) (sum : Name) : Prop :=
  ∀ ctor k, schema.constructors ctor = some k → k.sumName = sum → ctor ∈ schema.sumConstructors sum

/-- A type of the file's schemas. -/
def SubjectType.Known (schemas : Schemas) : SubjectType → Prop
  | dest dests sum => dests.name = "" ∧ schemas "" = some dests ∧ dests.Lists sum
  | enum schema sum => schema.name ≠ "" ∧ schemas schema.name = some schema ∧ schema.enumSums sum = true
  | schemaSum schema sum =>
    schema.name ≠ "" ∧ schemas schema.name = some schema ∧ schema.enumSums sum = false ∧ schema.Lists sum
  | int => True

/-- The values of a type but for null. -/
def SubjectType.Has : SubjectType → Value → Prop
  | dest schema sum, .node m ctor _ | .schemaSum schema sum, .node m ctor _ =>
    m = schema.name ∧ ∃ k, schema.constructors ctor = some k ∧ k.sumName = sum
  | enum schema sum, .enum ctor => ctor ∈ schema.sumConstructors sum
  | int, .int _ => True
  | _, _ => False

/-- A name that stands for a constant: a variant without fields, or an enum value. -/
def SubjectType.constant (x : Name) : SubjectType → Bool
  | dest dests sum =>
    match dests.constructors x with
    | some k => k.sumName == sum && k.fields.isEmpty
    | none => false
  | enum schema sum => (schema.sumConstructors sum).contains x
  | schemaSum _ _ | int => false

/-! ## The first arm that matches -/

def Value.isCtor (ctor : Name) : Value → Bool
  | node _ c _ => c == ctor
  | enum c => c == ctor
  | _ => false

def Arm.matches (schemas : Schemas) (t : SubjectType) (v : Value) (arm : Arm) : Option Env :=
  match arm.pat with
  | .leaf (.bind x) => if t.constant x then (if v.isCtor x then some .empty else none) else some (Env.empty.bind x v)
  | pat => pat.matches schemas v

/-! ## What is accepted -/

/-- A label of a `switch`. -/
inductive Label
  | case (value : Int)
  | default
  /-- A constant that the generated code does not declare. -/
  | undeclared
  deriving DecidableEq

/-- The label of an arm, `none` where the checker or a backend refuses its pattern. For a schema sum it is C's. -/
def SubjectType.label (t : SubjectType) : Pattern → Option Label
  | .constructor module ctor _ =>
    match t with
    | dest dests sum =>
      if module = "" then
        match dests.constructors ctor with
        | some k => if k.sumName = sum then some (.case (dests.tag sum ctor)) else none
        | none => none
      else none
    | .schemaSum schema _ =>
      if module = schema.name then
        match schema.constructors ctor with
        | some k =>
          some (if ctor ∈ schema.sumConstructors k.sumName then .case (schema.tag k.sumName ctor) else .undeclared)
        | none => none
      else none
    | enum _ _ | int => if module = "" then some .undeclared else none
  | .leaf .wildcard =>
    match t with
    | .schemaSum _ _ => none
    | dest _ _ | enum _ _ | int => some .default
  | .leaf (.bind x) =>
    match t with
    | dest schema sum | enum schema sum => some (if t.constant x then .case (schema.tag sum x) else .default)
    | int => some .default
    | .schemaSum _ _ => none
  | .leaf (.int n) =>
    match t with
    | int => some (.case n)
    | dest _ _ | enum _ _ | .schemaSum _ _ => none
  | .leaf .nil | .leaf (.string _) => none

/-- `has_catchall`. -/
def SubjectType.catchall (t : SubjectType) : Pattern → Bool
  | .leaf .wildcard => true
  | .leaf (.bind x) => !t.constant x
  | _ => false

/-- `matched_variants`. -/
def SubjectType.covers (t : SubjectType) (ctor : Name) : Pattern → Bool
  | .leaf (.bind x) => t.constant x && x == ctor
  | .constructor module c _ => module == "" && c == ctor
  | _ => false

/-- The check for exhaustiveness. -/
def SubjectType.exhausted (t : SubjectType) (arms : List Arm) : Bool :=
  match t with
  | dest schema sum | enum schema sum =>
    arms.any (fun arm => t.catchall arm.pat) ||
      (schema.sumConstructors sum).all fun ctor => arms.any fun arm => t.covers ctor arm.pat
  | .schemaSum _ _ | int => true

/-- A `match` that is accepted. -/
structure MatchExpr where
  schemas : Schemas
  type : SubjectType
  arms : List Arm
  known : type.Known schemas
  labelled : ∀ arm ∈ arms, (type.label arm.pat).isSome = true
  exhaustive : type.exhausted arms = true

/-- A subject of a `match`. -/
structure MatchExpr.Subject (m : MatchExpr) where
  value : Value
  has : m.type.Has value

/-- The first arm that matches, with its bindings. -/
def MatchExpr.choice (m : MatchExpr) (v : Value) : Option (Nat × Env) :=
  m.arms.zipIdx.findSome? fun (arm, i) => (arm.matches m.schemas m.type v).map fun env => (i, env)

/-! ## The emitted code -/

/-- What an arm of a `switch` declares: the names of its fields, constants among them. -/
def FieldPats.bindNames : FieldPats → List Name
  | nil => []
  | leaf _ (.bind x) more => x :: more.bindNames
  | leaf _ _ more | nested _ _ _ _ more | rest _ more => more.bindNames

/-- What the code of `emit_match` declares in the block of a constructor. -/
def declareNames (schema : Schema) (k : Constructor) : FieldPats → List Name
  | .nil => []
  | .leaf name (.bind x) more =>
    if enumValue schema (k.field name) x then declareNames schema k more else x :: declareNames schema k more
  | .leaf _ _ more | .nested _ _ _ _ more => declareNames schema k more
  | .rest name more => name :: declareNames schema k more

/-- In the blocks of nested constructors no name is declared twice. -/
def nestedOnce (schema : Schema) (module : Name) : FieldPats → Bool
  | .nil => true
  | .leaf _ _ more | .rest _ more => nestedOnce schema module more
  | .nested _ module' ctor sub more =>
    (match schema.constructors ctor with
      | some k => module' != module || (decide (declareNames schema k sub).Nodup && nestedOnce schema module' sub)
      | none => true) && nestedOnce schema module more

/-- The block of an arm of a `switch` compiles: its label and its fields are known, and no name is declared twice. -/
def SubjectType.armCompiles (t : SubjectType) (arm : Arm) : Bool :=
  t.label arm.pat != some .undeclared &&
    match t, arm.pat with
    | .schemaSum schema sum, .constructor _ ctor fields =>
      -- a constructor of another sum has no place for its fields in this one
      decide fields.bindNames.Nodup && (((schema.constructors ctor).map Constructor.sumName == some sum) || fields.bindNames.isEmpty)
    | _, .constructor _ _ fields => decide fields.bindNames.Nodup
    | _, .leaf _ => true

def SubjectType.switchCompiles (t : SubjectType) (arms : List Arm) : Bool :=
  decide (arms.map fun arm => t.label arm.pat).Nodup && arms.all t.armCompiles

/-- The blocks of the C++ code for a schema sum compile: an enum value is no class. -/
def chainCompiles (schema : Schema) (arms : List Arm) : Bool :=
  arms.all fun arm =>
    match arm.pat with
    | .constructor module ctor fields =>
      match schema.constructors ctor with
      | some k => !schema.enumSums k.sumName && decide (declareNames schema k fields).Nodup && nestedOnce schema module fields
      | none => true
    | .leaf _ => true

def MatchExpr.compiles (m : MatchExpr) (lang : Lang) : Bool :=
  match lang, m.type with
  | .cpp, .schemaSum schema _ => chainCompiles schema m.arms
  | _, t => t.switchCompiles m.arms

/-- What is bound for the field of a variant; `none` where a null pointer is read. -/
def readDest (sum : Name) (f : Option Field) (v : Value) : Option Value :=
  match f with
  | some f => if f.typeModule = "" ∧ f.typeName = sum ∧ f.flag = .none ∧ v.isNull then none else some v
  | none => some v

/-- What C binds for the field of a constructor: of a sequence it is the pointer to its elements. -/
def readSum : Value → Option Value
  | .list _ elem => some (.array elem)
  | v => some v

/-- The declarations of an arm of a `switch`. -/
def bindFields (read : Name → Option Value) : FieldPats → Env → Option Env
  | .nil, env => some env
  | .leaf name (.bind x) more, env => (read name).bind fun v => bindFields read more (env.bind x v)
  | .leaf _ _ more, env | .nested _ _ _ _ more, env | .rest _ more, env => bindFields read more env

/-- The bindings of an arm of a `switch`, where it is entered. -/
def SubjectType.armEnv (t : SubjectType) (v : Value) (arm : Arm) : Option Env :=
  match arm.pat with
  | .leaf (.bind x) => some (if t.constant x then .empty else Env.empty.bind x v)
  | .leaf _ => some .empty
  | .constructor _ ctor fields =>
    match t, v with
    | dest dests sum, .node _ _ field =>
      bindFields (fun name => readDest sum ((dests.constructors ctor).bind fun k => k.field name) (field name)) fields .empty
    | .schemaSum _ _, .node _ _ field => bindFields (fun name => readSum (field name)) fields .empty
    | _, _ => none

/-- What a `switch` looks at. -/
def SubjectType.key : SubjectType → Value → Int
  | dest schema sum, .node _ ctor _ | .schemaSum schema sum, .node _ ctor _ | enum schema sum, .enum ctor => schema.tag sum ctor
  | _, .int n => n
  | _, _ => 0

/-- Where a `switch` enters its arms. -/
def SubjectType.enter (t : SubjectType) (v : Value) (arms : List (Arm × Nat)) : List (Arm × Nat) :=
  match arms.dropWhile fun (arm, _) => t.label arm.pat != some (.case (t.key v)) with
  | [] => arms.dropWhile fun (arm, _) => t.label arm.pat != some .default
  | entry => entry

/-- Arms that are not left by a `break`. -/
def SubjectType.fallThrough (t : SubjectType) (v : Value) : List (Arm × Nat) → Option (List (Nat × Env))
  | [] => some []
  | (arm, i) :: more =>
    (t.armEnv v arm).bind fun env =>
      if arm.returns then some [(i, env)] else (t.fallThrough v more).map fun ran => (i, env) :: ran

/-- An arm of the chain of casts in C++. -/
def castOf : Arm × Nat → Option (Nat × Bool × Name × Name × FieldPats)
  | (⟨.constructor module ctor fields, returns⟩, i) => some (i, returns, module, ctor, fields)
  | (⟨.leaf _, _⟩, _) => none

/-- The chain of casts in C++. -/
def chain (schema : Schema) (arms : List Arm) : List Code :=
  (arms.zipIdx.filterMap castOf).map fun (i, returns, module, ctor, fields) =>
    emitMatch .cpp schema module ctor fields (.body i returns false)

/-- The arms whose bodies C runs, with their bindings. -/
def MatchExpr.runC (m : MatchExpr) (v : Value) : Option (List (Nat × Env)) :=
  if m.compiles .c then
    match m.type.enter v m.arms.zipIdx with
    | [] => some []
    | (arm, i) :: _ => (m.type.armEnv v arm).map fun env => [(i, env)]
  else none

/-- The arms whose bodies C++ runs. -/
def MatchExpr.runCpp (m : MatchExpr) (v : Value) : Option (List (Nat × Env)) :=
  if m.compiles .cpp then
    match m.type with
    | .schemaSum schema _ => (execAll .cpp v (chain schema m.arms)).map Prod.snd
    | t => t.fallThrough v (t.enter v m.arms.zipIdx)
  else none

/-- **Both backends take the first arm that matches**, and some arm if the subject is a destination, a user sum or an
enum. -/
def TakesFirst (m : MatchExpr) (v : m.Subject) : Prop :=
  m.runC v.value = some (m.choice v.value).toList ∧ m.runCpp v.value = some (m.choice v.value).toList ∧
    match m.type with
    | .dest _ _ | .enum _ _ => m.choice v.value ≠ none
    | .schemaSum _ _ | .int => True

/-! ## The labels of arms that match -/

section

variable {schemas : Schemas} {t : SubjectType} {value : Value} {arm : Arm} {env : Env}

theorem isCtor_key {x : Name} (hhas : t.Has value) (h : value.isCtor x = true) (hint : t ≠ .int) :
    ∃ schema sum, t.key value = schema.tag sum x ∧
      (t = .dest schema sum ∨ t = .enum schema sum ∨ t = .schemaSum schema sum) := by
  cases value with
  | node module c field =>
    rw [← beq_iff_eq.mp h]
    cases t with
    | dest schema sum => exact ⟨schema, sum, rfl, .inl rfl⟩
    | schemaSum schema sum => exact ⟨schema, sum, rfl, .inr (.inr rfl)⟩
    | enum | int => exact absurd hhas nofun
  | enum c =>
    rw [← beq_iff_eq.mp h]
    cases t with
    | enum schema sum => exact ⟨schema, sum, rfl, .inr (.inl rfl)⟩
    | dest | schemaSum | int => exact absurd hhas nofun
  | null | int | string | list | array | other => exact absurd h nofun

theorem constructor_matches {module ctor : Name} {fields : FieldPats}
    (h : (Pattern.constructor module ctor fields).matches schemas value = some env) :
    ∃ k field, value = .node module ctor field ∧ schemas.find module ctor = some k := by
  cases value with
  | node m c field =>
    cases hfind : schemas.find module ctor with
    | none => simp only [Pattern.matches, hfind, reduceCtorEq] at h
    | some k =>
      simp only [Pattern.matches, hfind] at h
      split at h
      · next hctor =>
        obtain ⟨rfl, rfl⟩ := hctor
        exact ⟨k, field, rfl, rfl⟩
      · exact absurd h nofun
  | null | int | string | enum | list | array | other => exact absurd h nofun

/-- **An arm that matches has the subject's label or is a default.** -/
theorem label_of_matches (hknown : t.Known schemas) (hhas : t.Has value) (hlabel : (t.label arm.pat).isSome = true)
    (h : arm.matches schemas t value = some env) :
    t.label arm.pat = some .default ∨ t.label arm.pat = some (.case (t.key value)) := by
  obtain ⟨pat, returns⟩ := arm
  dsimp only at hlabel ⊢
  unfold Arm.matches at h
  cases pat with
  | leaf pat =>
    cases pat with
    | wildcard =>
      cases t with
      | schemaSum => exact absurd hlabel nofun
      | dest | enum | int => exact .inl rfl
    | nil | string => exact absurd hlabel nofun
    | int n =>
      cases t with
      | int =>
        cases value with
        | int k =>
          have hkn : k = n := by
            by_contra hne
            simp [Pattern.matches, LeafPat.matches, Value.isInt, hne] at h
          rw [← hkn]
          exact .inr rfl
        | null | string | enum | node | list | array | other => exact absurd hhas nofun
      | dest | enum | schemaSum => exact absurd hlabel nofun
    | bind x =>
      dsimp only at h
      by_cases hconst : t.constant x = true
      · refine .inr ?_
        rw [if_pos hconst] at h
        split at h
        · next hctor =>
          have hint : t ≠ .int := fun ht => by
            rw [ht] at hconst
            exact absurd hconst nofun
          obtain ⟨schema, sum, hkey, rfl | rfl | rfl⟩ := isCtor_key hhas hctor hint
          · rw [hkey, SubjectType.label, if_pos hconst]
          · rw [hkey, SubjectType.label, if_pos hconst]
          · exact absurd hlabel nofun
        · exact absurd h nofun
      · refine .inl ?_
        cases t with
        | schemaSum => exact absurd hlabel nofun
        | int => rfl
        | dest | enum => rw [SubjectType.label, if_neg hconst]
  | constructor module ctor fields =>
    obtain ⟨k, field, rfl, hfind⟩ := constructor_matches h
    refine .inr ?_
    cases t with
    | enum | int => exact absurd hhas nofun
    | dest dests sum =>
      obtain ⟨hname, -, hlists⟩ := hknown
      obtain ⟨hmodule, k', hk', hsum⟩ := hhas
      simp only [SubjectType.label, hmodule, hname, hk', hsum, if_true, SubjectType.key]
    | schemaSum schema sum =>
      obtain ⟨-, -, -, hlists⟩ := hknown
      obtain ⟨hmodule, k', hk', hsum⟩ := hhas
      simp only [SubjectType.label, hmodule, hk', hsum, if_true, if_pos (hlists ctor k' hk' hsum), SubjectType.key]

variable (schemas value) in
/-- A default matches. -/
theorem default_matches (h : t.label arm.pat = some .default) : ∃ env, arm.matches schemas t value = some env := by
  obtain ⟨pat, returns⟩ := arm
  unfold Arm.matches
  cases pat with
  | leaf pat =>
    cases pat with
    | wildcard => exact ⟨.empty, rfl⟩
    | nil | string => exact absurd h nofun
    | int n =>
      cases t with
      | int => exact absurd (Option.some.inj h) nofun
      | dest | enum | schemaSum => exact absurd h nofun
    | bind x =>
      have hconst : t.constant x = false := by
        by_contra hconst
        rw [Bool.not_eq_false] at hconst
        cases t with
        | dest | enum => simp [SubjectType.label, hconst] at h
        | schemaSum | int => exact absurd hconst nofun
      dsimp only
      rw [hconst]
      exact ⟨_, rfl⟩
  | constructor module ctor fields =>
    refine absurd h ?_
    unfold SubjectType.label
    grind

/-- **An arm that covers a constructor has its label.** -/
theorem label_of_covers {ctor : Name} (hknown : t.Known schemas) (hhas : t.Has value)
    (hctor : value.isCtor ctor = true) (hlabel : (t.label arm.pat).isSome = true) (hdecl : t.label arm.pat ≠ some .undeclared)
    (h : t.covers ctor arm.pat = true) : t.label arm.pat = some (.case (t.key value)) := by
  obtain ⟨pat, returns⟩ := arm
  dsimp only at h hlabel hdecl ⊢
  cases pat with
  | leaf pat =>
    cases pat with
    | wildcard | nil | int | string => exact absurd h nofun
    | bind x =>
      obtain ⟨hconst, hx⟩ := Bool.and_eq_true_iff.mp h
      have hint : t ≠ .int := fun ht => by
        rw [ht] at hconst
        exact absurd hconst nofun
      obtain ⟨schema, sum, hkey, rfl | rfl | rfl⟩ := isCtor_key hhas hctor hint
      · rw [hkey, SubjectType.label, if_pos hconst, beq_iff_eq.mp hx]
      · rw [hkey, SubjectType.label, if_pos hconst, beq_iff_eq.mp hx]
      · exact absurd hconst nofun
  | constructor module c fields =>
    obtain ⟨hmodule, hc⟩ := Bool.and_eq_true_iff.mp h
    obtain rfl := beq_iff_eq.mp hmodule
    obtain rfl := beq_iff_eq.mp hc
    cases t with
    | enum | int => exact absurd rfl hdecl
    | dest dests sum =>
      cases value with
      | node m c' field =>
        obtain rfl := beq_iff_eq.mp hctor
        obtain ⟨-, k, hk, hsum⟩ := hhas
        simp only [SubjectType.label, hk, hsum, if_true, SubjectType.key]
      | null | int | string | enum | list | array | other => exact absurd hhas nofun
    | schemaSum schema sum =>
      rw [SubjectType.label, if_neg (Ne.symm hknown.1)] at hlabel
      exact absurd hlabel nofun

theorem catchall_label (hlabel : (t.label arm.pat).isSome = true) (h : t.catchall arm.pat = true) :
    t.label arm.pat = some .default := by
  obtain ⟨pat, returns⟩ := arm
  dsimp only at h hlabel ⊢
  cases pat with
  | constructor => exact absurd h nofun
  | leaf pat =>
    cases pat with
    | nil | int | string => exact absurd h nofun
    | wildcard =>
      cases t with
      | schemaSum => exact absurd hlabel nofun
      | dest | enum | int => rfl
    | bind x =>
      have hconst : t.constant x = false := by simpa [SubjectType.catchall] using h
      cases t with
      | schemaSum => exact absurd hlabel nofun
      | int => rfl
      | dest | enum => rw [SubjectType.label, hconst, if_neg Bool.false_ne_true]

/-- A destination, a user sum and an enum have an arm for each value. -/
theorem exhausted_arm {arms : List Arm} (hknown : t.Known schemas) (hhas : t.Has value) (h : t.exhausted arms = true)
    (hsum : ∀ schema sum, t ≠ .schemaSum schema sum) (hint : t ≠ .int) :
    (∃ arm ∈ arms, t.catchall arm.pat = true) ∨
      ∃ ctor, value.isCtor ctor = true ∧ ∃ arm ∈ arms, t.covers ctor arm.pat = true := by
  obtain ⟨ctor, hctor, harm⟩ : ∃ ctor, value.isCtor ctor = true ∧
      ((arms.any fun arm => t.catchall arm.pat) || arms.any fun arm => t.covers ctor arm.pat) = true := by
    cases t with
    | int => exact absurd rfl hint
    | schemaSum schema sum => exact absurd rfl (hsum schema sum)
    | dest schema sum =>
      cases value with
      | node m ctor field =>
        obtain ⟨-, k, hk, hks⟩ := hhas
        refine ⟨ctor, beq_self_eq_true _, ?_⟩
        rcases Bool.or_eq_true_iff.mp h with h | h
        · rw [h, Bool.true_or]
        · rw [List.all_eq_true.mp h ctor (hknown.2.2 ctor k hk hks), Bool.or_true]
      | null | int | string | enum | list | array | other => exact absurd hhas nofun
    | enum schema sum =>
      cases value with
      | enum ctor =>
        refine ⟨ctor, beq_self_eq_true _, ?_⟩
        rcases Bool.or_eq_true_iff.mp h with h | h
        · rw [h, Bool.true_or]
        · rw [List.all_eq_true.mp h ctor hhas, Bool.or_true]
      | null | int | string | node | list | array | other => exact absurd hhas nofun
  rcases Bool.or_eq_true_iff.mp harm with harm | harm
  · exact .inl (List.any_eq_true.mp harm)
  · exact .inr ⟨ctor, hctor, List.any_eq_true.mp harm⟩

end

/-! ## The first arm -/

theorem zipIdx_increasing {α : Type} (l : List α) (n : Nat) : (l.zipIdx n).Pairwise fun x y => x.2 < y.2 := by
  have h := List.pairwise_lt_range' (s := n) (n := l.length)
  rw [← List.zipIdx_map_snd] at h
  exact List.pairwise_map.mp h

/-- The first of the arms that `f` accepts. -/
theorem findSome?_iff {α β : Type} {l : List (α × Nat)} (hl : l.Pairwise fun x y => x.2 < y.2) (f : α → Option β) {i : Nat}
    {b : β} :
    (l.findSome? fun (a, i) => (f a).map fun b => (i, b)) = some (i, b) ↔
      ∃ a, (a, i) ∈ l ∧ f a = some b ∧ ∀ x ∈ l, x.2 < i → f x.1 = none := by
  induction l with
  | nil => exact iff_of_false nofun fun ⟨_, h, _⟩ => absurd h List.not_mem_nil
  | cons y l ih =>
    obtain ⟨hy, hl⟩ := List.pairwise_cons.mp hl
    rw [List.findSome?_cons]
    cases hfy : f y.1 with
    | none =>
      simp only [hfy, Option.map_none, ih hl]
      constructor
      · rintro ⟨a, ha, hb, hbefore⟩
        refine ⟨a, List.mem_cons_of_mem _ ha, hb, fun x hx hlt => ?_⟩
        rcases List.mem_cons.mp hx with rfl | hx
        · exact hfy
        · exact hbefore x hx hlt
      · rintro ⟨a, ha, hb, hbefore⟩
        rcases List.mem_cons.mp ha with rfl | ha
        · rw [hfy] at hb
          exact absurd hb nofun
        · exact ⟨a, ha, hb, fun x hx => hbefore x (List.mem_cons_of_mem _ hx)⟩
    | some b' =>
      simp only [hfy, Option.map_some]
      constructor
      · intro h
        obtain ⟨rfl, rfl⟩ := Prod.mk.inj (Option.some.inj h)
        refine ⟨y.1, List.mem_cons_self, hfy, fun x hx hlt => ?_⟩
        rcases List.mem_cons.mp hx with rfl | hx
        · exact absurd hlt (Nat.lt_irrefl _)
        · exact absurd (Nat.lt_trans hlt (hy x hx)) (Nat.lt_irrefl _)
      · rintro ⟨a, ha, hb, hbefore⟩
        rcases List.mem_cons.mp ha with rfl | ha
        · rw [hfy] at hb
          rw [Option.some.inj hb]
        · rw [hbefore y List.mem_cons_self (hy _ ha)] at hfy
          exact absurd hfy nofun

/-! ## The arm that the label leads to -/

/-- Arms apart have labels apart. -/
theorem label_inj {t : SubjectType} {arms : List Arm} (h : (arms.map fun arm => t.label arm.pat).Nodup) {a b : Arm} {i j : Nat}
    (ha : (a, i) ∈ arms.zipIdx) (hb : (b, j) ∈ arms.zipIdx) (hab : t.label a.pat = t.label b.pat) : i = j := by
  rw [List.mem_zipIdx_iff_getElem?] at ha hb
  have hi : (arms.map fun arm => t.label arm.pat)[i]? = some (t.label a.pat) := by rw [List.getElem?_map, ha, Option.map_some]
  have hj : (arms.map fun arm => t.label arm.pat)[j]? = some (t.label a.pat) := by
    rw [List.getElem?_map, hb, Option.map_some, hab]
  obtain ⟨hlt, -⟩ := List.getElem?_eq_some_iff.mp hi
  exact (List.getElem?_inj hlt h).mp (hi.trans hj.symm)

theorem enter_nil {t : SubjectType} {v : Value} {arms : List (Arm × Nat)} (h : t.enter v arms = []) :
    ∀ x ∈ arms, t.label x.1.pat ≠ some (.case (t.key v)) ∧ t.label x.1.pat ≠ some .default := by
  unfold SubjectType.enter at h
  split at h
  · next hcase =>
    intro x hx
    have hc := List.dropWhile_eq_nil_iff.mp hcase x hx
    have hd := List.dropWhile_eq_nil_iff.mp h x hx
    exact ⟨by simpa using hc, by simpa using hd⟩
  · next hne => exact absurd h hne

theorem mem_of_dropWhile {α : Type} {p : α → Bool} {l more : List α} {x : α} (h : l.dropWhile p = x :: more) :
    x ∈ l ∧ p x = false := by
  have hne : l.dropWhile p ≠ [] := by
    rw [h]
    exact List.cons_ne_nil _ _
  have hx : (l.dropWhile p).head hne = x := by simp only [h, List.head_cons]
  refine ⟨List.dropWhile_subset p (by rw [h]; exact List.mem_cons_self), ?_⟩
  rw [← hx]
  exact List.head_dropWhile_not p hne

theorem enter_cons {t : SubjectType} {v : Value} {arms more : List (Arm × Nat)} {arm : Arm} {i : Nat}
    (h : t.enter v arms = (arm, i) :: more) :
    (arm, i) ∈ arms ∧ (t.label arm.pat = some (.case (t.key v)) ∨
      t.label arm.pat = some .default ∧ ∀ x ∈ arms, t.label x.1.pat ≠ some (.case (t.key v))) := by
  unfold SubjectType.enter at h
  split at h
  · next hcase =>
    obtain ⟨hmem, hlabel⟩ := mem_of_dropWhile h
    refine ⟨hmem, .inr ⟨by simpa using hlabel, fun x hx => ?_⟩⟩
    simpa using List.dropWhile_eq_nil_iff.mp hcase x hx
  · obtain ⟨hmem, hlabel⟩ := mem_of_dropWhile h
    exact ⟨hmem, .inl (by simpa using hlabel)⟩

variable {m : MatchExpr} {v : m.Subject} {arm : Arm} {i : Nat} {env : Env} {more : List (Arm × Nat)}

theorem choice_iff : m.choice v.value = some (i, env) ↔
    ∃ arm, (arm, i) ∈ m.arms.zipIdx ∧ arm.matches m.schemas m.type v.value = some env ∧
      ∀ x ∈ m.arms.zipIdx, x.2 < i → x.1.matches m.schemas m.type v.value = none :=
  findSome?_iff (zipIdx_increasing _ _) _

theorem mem_arms {x : Arm × Nat} (hx : x ∈ m.arms.zipIdx) : x.1 ∈ m.arms := List.fst_mem_of_mem_zipIdx hx

/-- **The subject's label leads to the arm that is taken**, if no default stands before it. -/
theorem choice_entered (hnodup : (m.arms.map fun arm => m.type.label arm.pat).Nodup)
    (henter : m.type.enter v.value m.arms.zipIdx = (arm, i) :: more)
    (hmatches : arm.matches m.schemas m.type v.value = some env)
    (hdefault : ∀ x ∈ m.arms.zipIdx, x.2 < i → m.type.label x.1.pat ≠ some .default) :
    m.choice v.value = some (i, env) := by
  obtain ⟨hmem, hlabel⟩ := enter_cons henter
  refine choice_iff.mpr ⟨arm, hmem, hmatches, fun x hx hlt => ?_⟩
  by_contra hne
  obtain ⟨env', henv'⟩ := Option.ne_none_iff_exists'.mp hne
  have hcase := (label_of_matches m.known v.has (m.labelled _ (mem_arms hx)) henv').resolve_left (hdefault x hx hlt)
  rcases hlabel with hlabel | ⟨-, hnone⟩
  · exact absurd (label_inj hnodup hx hmem (hcase.trans hlabel.symm)) (Nat.ne_of_lt hlt)
  · exact hnone x hx hcase

theorem choice_none (henter : m.type.enter v.value m.arms.zipIdx = []) : m.choice v.value = none := by
  refine List.findSome?_eq_none_iff.mpr fun x hx => ?_
  rw [Option.map_eq_none_iff]
  by_contra hne
  obtain ⟨env, henv⟩ := Option.ne_none_iff_exists'.mp hne
  obtain ⟨hcase, hdefault⟩ := enter_nil henter x hx
  rcases label_of_matches m.known v.has (m.labelled _ (mem_arms hx)) henv with h | h
  · exact hdefault h
  · exact hcase h

/-- **A destination, a user sum and an enum have an arm for each value.** -/
theorem entered (hdecl : ∀ arm ∈ m.arms, m.type.label arm.pat ≠ some .undeclared)
    (hsum : ∀ schema sum, m.type ≠ .schemaSum schema sum) (hint : m.type ≠ .int) :
    m.type.enter v.value m.arms.zipIdx ≠ [] := by
  intro henter
  have hnone : ∀ arm ∈ m.arms, m.type.label arm.pat ≠ some (.case (m.type.key v.value)) ∧
      m.type.label arm.pat ≠ some .default := by
    intro arm harm
    obtain ⟨i, hi⟩ := List.getElem?_of_mem harm
    exact enter_nil henter (arm, i) (List.mem_zipIdx_iff_getElem?.mpr hi)
  rcases exhausted_arm m.known v.has m.exhaustive hsum hint with ⟨arm, harm, hcatch⟩ | ⟨ctor, hctor, arm, harm, hcovers⟩
  · exact (hnone arm harm).2 (catchall_label (m.labelled arm harm) hcatch)
  · exact (hnone arm harm).1 (label_of_covers m.known v.has hctor (m.labelled arm harm) (hdecl arm harm) hcovers)

/-! ## The arms that are run -/

theorem fallThrough_nil {t : SubjectType} {v : Value} (h : t.fallThrough v more = some []) : more = [] := by
  match more with
  | [] => rfl
  | (arm, i) :: more =>
    rw [SubjectType.fallThrough] at h
    obtain ⟨env, -, h⟩ := Option.bind_eq_some_iff.mp h
    split at h
    · exact absurd h nofun
    · obtain ⟨ran, -, h⟩ := Option.map_eq_some_iff.mp h
      exact absurd h nofun

/-- An arm of a `switch` in C++ runs alone if it returns or is the last. -/
theorem fallThrough_iff {t : SubjectType} {v : Value} (henv : t.armEnv v arm = some env) :
    t.fallThrough v ((arm, i) :: more) = some [(i, env)] ↔ arm.returns = true ∨ more = [] := by
  rw [SubjectType.fallThrough, henv, Option.bind_some]
  cases arm.returns with
  | true => exact iff_of_true rfl (.inl rfl)
  | false =>
    simp only [Bool.false_eq_true, if_false, false_or]
    constructor
    · intro h
      obtain ⟨ran, hran, hcons⟩ := Option.map_eq_some_iff.mp h
      rw [(List.cons.inj hcons).2] at hran
      exact fallThrough_nil hran
    · rintro rfl
      rfl

/-- What an arm of the chain of casts binds, where it lets the subject through. -/
def castEnv (schema : Schema) (v : Value) (arm : Arm) : Option Env :=
  match arm.pat, v with
  | .constructor module ctor fields, .node _ c field =>
    if c = ctor then
      (schema.constructors ctor).bind fun k => (readFields .cpp schema module k fields field .empty).join
    else none
  | _, _ => none

/-- The block of an arm of the chain. -/
theorem exec_cast {schema : Schema} {sum : Name} {value : Value} {module ctor : Name} {fields : FieldPats} {returns : Bool}
    (hlabel : ((SubjectType.schemaSum schema sum).label (.constructor module ctor fields)).isSome = true)
    (hhas : (SubjectType.schemaSum schema sum).Has value) :
    (emitMatch .cpp schema module ctor fields (.body i returns false)).exec .cpp value (fun _ => .null) .empty =
      some (passed ((castEnv schema value ⟨.constructor module ctor fields, returns⟩).map fun env => (i, returns, env))) := by
  cases value with
  | node m c field =>
    obtain ⟨rfl, -⟩ := hhas
    obtain ⟨k, hk⟩ : ∃ k, schema.constructors ctor = some k := by
      cases hk : schema.constructors ctor with
      | some k => exact ⟨k, rfl⟩
      | none =>
        simp only [SubjectType.label, hk] at hlabel
        split at hlabel
        · exact absurd hlabel nofun
        · exact absurd hlabel nofun
    rw [exec_emitMatch hk rfl (.inl rfl) fun _ _ => rfl]
    obtain ⟨o, ho⟩ := readFields_cpp schema module k fields field .empty
    simp only [castEnv, hk, ho, Option.bind_some]
    split
    · cases o with
      | none => rfl
      | some env =>
        cases returns with
        | true => rfl
        | false => rfl
    · rfl
  | null | int | string | enum | list | array | other => exact absurd hhas nofun

/-- **The chain of casts** runs the arms that let the subject through, up to the first that returns. -/
theorem exec_chain {schema : Schema} {sum : Name} {arms : List Arm} {value : Value}
    (hlabelled : ∀ arm ∈ arms, ((SubjectType.schemaSum schema sum).label arm.pat).isSome = true)
    (hhas : (SubjectType.schemaSum schema sum).Has value) :
    (execAll .cpp value (chain schema arms)).map Prod.snd =
      some (ranOf (arms.zipIdx.filterMap fun x => (castEnv schema value x.1).map fun env => (x.2, x.1.returns, env))) := by
  have hpass : (arms.zipIdx.filterMap castOf).filterMap (fun ((i, returns, module, ctor, fields) : Nat × Bool × Name × Name × FieldPats) =>
      (castEnv schema value ⟨.constructor module ctor fields, returns⟩).map fun env => (i, returns, env)) =
      arms.zipIdx.filterMap fun x => (castEnv schema value x.1).map fun env => (x.2, x.1.returns, env) := by
    rw [List.filterMap_filterMap]
    congr 1
    funext ⟨⟨pat, returns⟩, i⟩
    cases pat with
    | constructor module ctor fields => rfl
    | leaf pat => rfl
  rw [chain, execAll_passed _ fun x hx => ?_, Option.map_some, hpass]
  obtain ⟨⟨⟨pat, returns⟩, i⟩, hmem, hcast⟩ := List.mem_filterMap.mp hx
  cases pat with
  | leaf pat => exact absurd hcast nofun
  | constructor module ctor fields =>
    obtain rfl := Option.some.inj hcast
    exact exec_cast (hlabelled _ (List.fst_mem_of_mem_zipIdx hmem)) hhas

theorem filterMap_alone {α β : Type} {l : List (α × Nat)} (hl : l.Pairwise fun x y => x.2 < y.2) {f : α × Nat → Option β}
    {a : α × Nat} (ha : a ∈ l) (hf : ∀ x ∈ l, x.2 ≠ a.2 → f x = none) : l.filterMap f = (f a).toList := by
  obtain ⟨before, behind, rfl⟩ := List.append_of_mem ha
  obtain ⟨-, hbehind, hbefore⟩ := List.pairwise_append.mp hl
  have hnone₁ : before.filterMap f = [] := List.filterMap_eq_nil_iff.mpr fun x hx =>
    hf x (List.mem_append_left _ hx) (Nat.ne_of_lt (hbefore x hx a List.mem_cons_self))
  have hnone₂ : behind.filterMap f = [] := List.filterMap_eq_nil_iff.mpr fun x hx =>
    hf x (List.mem_append_right _ (List.mem_cons_of_mem _ hx)) (Nat.ne_of_gt ((List.pairwise_cons.mp hbehind).1 x hx))
  rw [List.filterMap_append, hnone₁, List.nil_append, List.filterMap_cons, hnone₂]
  cases f a with
  | none => rfl
  | some b => rfl

/-- An arm that the chain lets the subject through has its label in C. -/
theorem label_of_cast {schema : Schema} {sum : Name} {value : Value} {schemas : Schemas}
    (hknown : (SubjectType.schemaSum schema sum).Known schemas) (hhas : (SubjectType.schemaSum schema sum).Has value)
    (hlabel : ((SubjectType.schemaSum schema sum).label arm.pat).isSome = true) (h : castEnv schema value arm ≠ none) :
    (SubjectType.schemaSum schema sum).label arm.pat = some (.case ((SubjectType.schemaSum schema sum).key value)) := by
  obtain ⟨pat, returns⟩ := arm
  cases pat with
  | leaf pat => exact absurd rfl h
  | constructor module ctor fields =>
    cases value with
    | node m c field =>
      obtain ⟨hmodule, k, hk, hsum⟩ := hhas
      unfold castEnv at h
      dsimp only at h hlabel ⊢
      split at h
      · next hctor =>
        subst hctor
        simp only [SubjectType.label] at hlabel ⊢
        split at hlabel
        · next hname =>
          simp only [hname, hk, hsum, if_true, if_pos (hknown.2.2.2 c k hk hsum), SubjectType.key]
        · exact absurd hlabel nofun
      · exact absurd rfl h
    | null | int | string | enum | list | array | other => exact absurd hhas nofun

theorem nodup_of_compiles (h : m.compiles .c = true) : (m.arms.map fun arm => m.type.label arm.pat).Nodup := by
  have hswitch : m.type.switchCompiles m.arms = true := h
  exact of_decide_eq_true (Bool.and_eq_true_iff.mp hswitch).1

theorem declared_of_compiles (h : m.compiles .c = true) : ∀ arm ∈ m.arms, m.type.label arm.pat ≠ some .undeclared := by
  have hswitch : m.type.switchCompiles m.arms = true := h
  intro arm harm
  have harm := List.all_eq_true.mp (Bool.and_eq_true_iff.mp hswitch).2 arm harm
  exact bne_iff_ne.mp (Bool.and_eq_true_iff.mp harm).1

/-! ## The first arm is taken -/

/-- In C++ the arm that is entered is read alike if it is a cast's, and left if it is a label's. -/
def LeftAlone (m : MatchExpr) (v : m.Subject) (arm : Arm) (more : List (Arm × Nat)) : Prop :=
  match m.type with
  | .schemaSum schema _ => castEnv schema v.value arm = arm.matches m.schemas m.type v.value
  | .dest _ _ | .enum _ _ | .int => arm.returns = true ∨ more = []

/-- **When both backends take the first arm that matches.** -/
structure AsWritten (m : MatchExpr) (v : m.Subject) : Prop where
  c_compiles : m.compiles .c = true
  cpp_compiles : m.compiles .cpp = true
  /-- The sub-patterns that C leaves out make no difference. -/
  as_written : ∀ arm i more, m.type.enter v.value m.arms.zipIdx = (arm, i) :: more →
    ∃ env, arm.matches m.schemas m.type v.value = some env ∧ m.type.armEnv v.value arm = some env
  no_default_before : ∀ arm i more, m.type.enter v.value m.arms.zipIdx = (arm, i) :: more →
    ∀ x ∈ m.arms.zipIdx, x.2 < i → m.type.label x.1.pat ≠ some .default
  left_alone : ∀ arm i more, m.type.enter v.value m.arms.zipIdx = (arm, i) :: more → LeftAlone m v arm more

theorem runCpp_iff (hcompiles : ∀ lang, m.compiles lang = true)
    (henter : m.type.enter v.value m.arms.zipIdx = (arm, i) :: more)
    (hmatches : arm.matches m.schemas m.type v.value = some env) (henv : m.type.armEnv v.value arm = some env) :
    m.runCpp v.value = some [(i, env)] ↔ LeftAlone m v arm more := by
  have hnodup := nodup_of_compiles (hcompiles .c)
  obtain ⟨hmem, hlabel⟩ := enter_cons henter
  have hknown := m.known
  have hhas := v.has
  have hlabelled := m.labelled
  unfold MatchExpr.runCpp LeftAlone
  rw [if_pos (hcompiles .cpp), hmatches]
  cases ht : m.type with
  | schemaSum schema sum =>
    rw [ht] at hknown hhas hlabelled hnodup
    have halone : ∀ x ∈ m.arms.zipIdx, x.2 ≠ i → castEnv schema v.value x.1 = none := by
      intro x hx hne
      by_contra hcast
      have hcase := label_of_cast hknown hhas (hlabelled _ (mem_arms hx)) hcast
      rw [ht] at hlabel
      rcases hlabel with hlabel | ⟨-, hnone⟩
      · exact hne (label_inj hnodup hx hmem (hcase.trans hlabel.symm))
      · exact hnone x hx hcase
    dsimp only
    rw [exec_chain hlabelled hhas, filterMap_alone (zipIdx_increasing _ _) hmem fun x hx hne => by
      rw [halone x hx hne, Option.map_none]]
    dsimp only
    cases castEnv schema v.value arm with
    | none => exact iff_of_false nofun nofun
    | some env' =>
      have hran : ranOf [(i, arm.returns, env')] = [(i, env')] := by
        unfold ranOf
        split
        · rfl
        · rfl
      rw [Option.map_some, Option.toList_some, hran]
      simp only [Option.some.injEq, List.cons.injEq, Prod.mk.injEq, true_and, and_true]
  | dest | enum | int =>
    dsimp only
    rw [← ht, henter]
    exact fallThrough_iff henv

theorem runCpp_nil (hcompiles : ∀ lang, m.compiles lang = true) (henter : m.type.enter v.value m.arms.zipIdx = []) :
    m.runCpp v.value = some [] := by
  have hnone := enter_nil henter
  have hknown := m.known
  have hhas := v.has
  have hlabelled := m.labelled
  unfold MatchExpr.runCpp
  rw [if_pos (hcompiles .cpp)]
  cases ht : m.type with
  | schemaSum schema sum =>
    rw [ht] at hknown hhas hlabelled hnone
    have hnil : (m.arms.zipIdx.filterMap fun x => (castEnv schema v.value x.1).map fun env => (x.2, x.1.returns, env)) = [] := by
      refine List.filterMap_eq_nil_iff.mpr fun x hx => ?_
      rw [Option.map_eq_none_iff]
      by_contra hcast
      exact (hnone x hx).1 (label_of_cast hknown hhas (hlabelled _ (mem_arms hx)) hcast)
    dsimp only
    rw [exec_chain hlabelled hhas, hnil]
    rfl
  | dest | enum | int =>
    dsimp only
    rw [← ht, henter]
    rfl

/-- `sum shape = Circle(r: int) | Square(a: int)`. -/
def shapes : Schema where
  name := ""
  constructors := fun
    | "Circle" => some { sumName := "shape", fields := [⟨"r", "", "int", .none, false⟩] }
    | "Square" => some { sumName := "shape", fields := [⟨"a", "", "int", .none, false⟩] }
    | _ => none
  enumSums := fun _ => false
  sumConstructors := fun _ => ["Circle", "Square"]

/-- `match (s) { Circle(r: 1) => 0 | _ => 1 }`. -/
def unitCircle : MatchExpr where
  schemas := fun _ => some shapes
  type := .dest shapes "shape"
  arms := [⟨.constructor "" "Circle" (.leaf "r" (.int 1) .nil), true⟩, ⟨.leaf .wildcard, true⟩]
  known := by
    refine ⟨rfl, rfl, fun ctor k hk _ => ?_⟩
    simp only [shapes] at hk
    split at hk
    · exact List.mem_cons_self
    · exact List.mem_cons_of_mem _ List.mem_cons_self
    · exact absurd hk nofun
  labelled := by decide +kernel
  exhaustive := by decide +kernel

/-- `Circle(2)`. -/
def circleTwo : unitCircle.Subject := ⟨.node "" "Circle" fun _ => .int 2, rfl, _, rfl, rfl⟩

end Bbq.Ddcgc
