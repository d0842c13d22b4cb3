import Bbq.Ddcgc.Dispatch
import Bbq.Ddcgc.Guard

/-!
# Duplicate and unreachable rules

What `check_duplicates` and `check_overlap` of `ddcgc/src/typecheck.cpp` (1467-1681) say of the rules of a file, and
whether it is so.

* Rules are compared by texts: `serialize_pattern` writes no bind names, `serialize_expr` does, and a `?` for whole
  classes of expressions.
* A rule is selected by ordered choice (`RuleFile.choice`, which both dispatchers follow where `dispatches_iff` says).
  What the operators, predicates and constructors of guards compute is a parameter.
* **`diagnostics_precise`**: no rule that is reported is ever selected, in a file where reported duplicates are the
  same but for names that their guard does not use, and each head of an unreachable rule is one of an unguarded rule
  before it but for names. **`ternaries_collapse`**: a file where it is not so.
-/

namespace Bbq.Ddcgc

/-! ## Guards -/

mutual

/-- The value of a guard by its form. The forms that no guard may have come to nothing. -/
def Guard.value (ops : Operations Value) (env : Name → Value) : Guard → Value
  | .intLit n => ops.int n
  | .stringLit s => ops.string s
  | .boolLit b => ops.bool b
  | .nilLit => ops.null
  | .ident x => env x
  | .ternary cond then_ else_ =>
    if ops.truth (cond.value ops env) then then_.value ops env else else_.value ops env
  | .binOp op left right => ops.binary op (left.value ops env) (right.value ops env)
  | .unaryOp op operand => ops.unary op (operand.value ops env)
  | .call fn args =>
    match fn with
    | .ident p => ops.answer p (args.values ops env)
    | fn => ops.apply (fn.value ops env) (args.values ops env)
  | .fieldAcc base field => ops.field field (base.value ops env)
  | .indexAcc base index => ops.index (base.value ops env) (index.value ops env)
  | .tupleLit elems => ops.tuple (elems.values ops env)
  | .listLit elems => ops.vector (elems.values ops env)
  | .destPattern name args => ops.answer name (args.values ops env)
  | .other _ => ops.null

def Guards.values (ops : Operations Value) (env : Name → Value) : Guards → List Value
  | .nil => []
  | .cons head tail => head.value ops env :: tail.values ops env

end

mutual

/-- The variables of a guard. -/
def Guard.names : Guard → List Name
  | .intLit _ | .stringLit _ | .boolLit _ | .nilLit | .other _ => []
  | .ident x => [x]
  | .ternary cond then_ else_ => cond.names ++ then_.names ++ else_.names
  | .binOp _ left right => left.names ++ right.names
  | .unaryOp _ operand => operand.names
  | .call fn args =>
    match fn with
    | .ident _ => args.names
    | fn => fn.names ++ args.names
  | .fieldAcc base _ => base.names
  | .indexAcc base index => base.names ++ index.names
  | .tupleLit elems | .listLit elems | .destPattern _ elems => elems.names

def Guards.names : Guards → List Name
  | .nil => []
  | .cons head tail => head.names ++ tail.names

end

/-! ## Rules and their texts -/

/-- `rule`. -/
structure SourceRule where
  heads : List Pattern
  guard : Option Guard
  /-- The body ends in an expression. -/
  returns : Bool

/-- A rule file, with the schema of its first import. -/
structure SourceFile where
  schemas : Schemas
  schema : Schema
  imported : schemas schema.name = some schema
  rules : List SourceRule

/-- A text, as bytes. -/
def text (s : String) : List UInt8 := s.toUTF8.data.toList

mutual

/-- `serialize_expr`. -/
def Guard.serialize : Guard → List UInt8
  | .intLit n => text ("I(" ++ toString n ++ ")")
  | .stringLit s => text "S(" ++ s ++ text ")"
  | .boolLit b => text (if b then "B(1)" else "B(0)")
  | .nilLit => text "nil"
  | .ident x => text ("id(" ++ x ++ ")")
  | .binOp op left right => text ("BO(" ++ op ++ ",") ++ left.serialize ++ text "," ++ right.serialize ++ text ")"
  | .unaryOp op operand => text ("UO(" ++ op ++ ",") ++ operand.serialize ++ text ")"
  | .call fn args => text "C(" ++ fn.serialize ++ args.serialize ++ text ")"
  | .ternary .. | .fieldAcc .. | .indexAcc .. | .tupleLit _ | .listLit _ | .destPattern .. | .other _ => text "?"

/-- The arguments of a call. -/
def Guards.serialize : Guards → List UInt8
  | .nil => []
  | .cons head tail => text "," ++ head.serialize ++ tail.serialize

end

/-- `serialize_pattern`, of a pattern in a field. `enum_bps` has the binds that stand for enum values. -/
def LeafPat.serialize (schemas : Schemas) (f : Option Field) : LeafPat → List UInt8
  | .bind x => if enumConstant schemas f x then text ("enum(" ++ x ++ ")") else text "bind"
  | .wildcard => text "_"
  | .nil => text "nil"
  | .int n => text ("int(" ++ toString n ++ ")")
  | .string s => text "str(" ++ s ++ text ")"

/-- The fields of a pattern of the constructor `k`, with commas between them. -/
def FieldPats.serialize (schemas : Schemas) : FieldPats → Option Constructor → Bool → List UInt8
  | .nil, _, _ => []
  | .leaf name pat more, k, first =>
    text (if first then "" else ",") ++ text (name ++ ":") ++ pat.serialize schemas (k.bind fun k => k.field name) ++
      more.serialize schemas k false
  | .nested name module ctor sub more, k, first =>
    text (if first then "" else ",") ++ text (name ++ ":") ++ text (module ++ "." ++ ctor ++ "(") ++
      sub.serialize schemas (schemas.find module ctor) true ++ text ")" ++ more.serialize schemas k false
  | .rest name more, k, first =>
    text (if first then "" else ",") ++ text ("..." ++ name) ++ more.serialize schemas k false

def Pattern.serialize (schemas : Schemas) : Pattern → List UInt8
  | .constructor module ctor fields =>
    text (module ++ "." ++ ctor ++ "(") ++ fields.serialize schemas (schemas.find module ctor) true ++ text ")"
  | .leaf pat => pat.serialize schemas none

namespace SourceFile

variable (file : SourceFile)

/-! ## The checks -/

/-- The key of a rule in `check_duplicates`. -/
def signature (r : SourceRule) : List UInt8 :=
  r.heads.flatMap (fun h => h.serialize file.schemas ++ text "|") ++ text "@" ++
    match r.guard with
    | some guard => guard.serialize
    | none => text "_"

/-- `check_duplicates` rejects the rule `j`: an earlier one has its key. -/
def Duplicate (j : Nat) : Prop :=
  ∃ i < j, ∃ r r', file.rules[i]? = some r ∧ file.rules[j]? = some r' ∧ file.signature r = file.signature r'

/-- A head of the constructor. -/
def isHead (key : Name × Name) : Pattern → Bool
  | .constructor module ctor _ => module == key.1 && ctor == key.2
  | .leaf _ => false

/-- `index_heads`: the rules under a constructor, each as often as it has heads of it. -/
def indexHeads (key : Name × Name) : List (SourceRule × Nat) :=
  file.rules.zipIdx.flatMap fun (r, i) => (r.heads.filter (isHead key)).map fun _ => (r, i)

/-- `head_shape_signature` of the first head of the constructor. -/
def shape (key : Name × Name) (r : SourceRule) : Option (List UInt8) :=
  (r.heads.find? (isHead key)).map fun h => h.serialize file.schemas

/-- A group of `by_shape`. -/
def group (key : Name × Name) (sig : List UInt8) : List (SourceRule × Nat) :=
  (file.indexHeads key).filter fun (r, _) => file.shape key r == some sig

/-- `check_overlap` warns that the rule `j` is unreachable: it comes behind the first unguarded one of a group. -/
def Unreachable (j : Nat) : Prop :=
  ∃ key sig r, (r, j) ∈ ((file.group key sig).dropWhile fun (r, _) => r.guard.isSome).tail

/-! ## What is selected -/

/-- A rule as it is dispatched: `outer` has the values of the names that no pattern binds. -/
def run (ops : Operations Value) (outer : Name → Value) (r : SourceRule) : Rule where
  heads := r.heads
  guard := r.guard.map fun guard env => ops.truth (guard.value ops fun x => (env x).getD (outer x))
  returns := r.returns

def dispatched (ops : Operations Value) (outer : Name → Value) : RuleFile where
  schemas := file.schemas
  schema := file.schema
  imported := file.imported
  rules := file.rules.map (run ops outer)

/-- **Diagnostics are precise**: no node and no answers of the predicates make the ordered dispatch choose a rule that
is reported. -/
def Precise : Prop :=
  ∀ j, file.Duplicate j ∨ file.Unreachable j → ∀ ops outer v env, (file.dispatched ops outer).choice v ≠ some (j, env)

end SourceFile

/-! ## The condition -/

/-- A pattern of a field without the names that are not used. -/
def LeafPat.forget (schemas : Schemas) (f : Option Field) (used : List Name) : LeafPat → LeafPat
  | .bind x => if enumConstant schemas f x ∨ x ∈ used then .bind x else .wildcard
  | pat => pat

def FieldPats.forget (schemas : Schemas) (used : List Name) : FieldPats → Option Constructor → FieldPats
  | .nil, _ => .nil
  | .leaf name pat more, k =>
    .leaf name (pat.forget schemas (k.bind fun k => k.field name) used) (more.forget schemas used k)
  | .nested name module ctor sub more, k =>
    .nested name module ctor (sub.forget schemas used (schemas.find module ctor)) (more.forget schemas used k)
  | .rest name more, k => .rest name (more.forget schemas used k)

def Pattern.forget (schemas : Schemas) (used : List Name) : Pattern → Pattern
  | .constructor module ctor fields => .constructor module ctor (fields.forget schemas used (schemas.find module ctor))
  | .leaf pat => .leaf (pat.forget schemas none used)

namespace SourceFile

variable (file : SourceFile)

/-- Two rules are the same but for names that their guard does not use. -/
def Same (r r' : SourceRule) : Prop :=
  r.guard = r'.guard ∧
    let used := r.guard.elim [] Guard.names
    r.heads.map (Pattern.forget file.schemas used) = r'.heads.map (Pattern.forget file.schemas used)

/-- Each head of the rule `j` is one of an unguarded rule before it, but for names. -/
def Covered (j : Nat) (r' : SourceRule) : Prop :=
  ∀ h' ∈ r'.heads, ∃ i < j, ∃ r, file.rules[i]? = some r ∧ r.guard = none ∧
    ∃ h ∈ r.heads, h.forget file.schemas [] = h'.forget file.schemas []

/-- What is reported is so. -/
structure Sound : Prop where
  duplicates : ∀ j, file.Duplicate j → ∃ i < j, ∃ r r', file.rules[i]? = some r ∧ file.rules[j]? = some r' ∧
    file.Same r r'
  unreachable : ∀ j r', file.Unreachable j → file.rules[j]? = some r' → file.Covered j r'

end SourceFile

/-! ## Names that are not used -/

section Names

variable {ops : Operations Value} {env env' : Name → Value}

mutual

/-- **The value of a guard** is that of its variables. -/
theorem Guard.value_congr (e : Guard) (h : ∀ x ∈ e.names, env x = env' x) : e.value ops env = e.value ops env' := by
  cases e with
  | intLit n => rfl
  | stringLit s => rfl
  | boolLit b => rfl
  | nilLit => rfl
  | ident x => exact h x List.mem_cons_self
  | ternary cond then_ else_ =>
    rw [Guard.names, List.forall_mem_append, List.forall_mem_append] at h
    rw [Guard.value, Guard.value, Guard.value_congr cond h.1.1, Guard.value_congr then_ h.1.2,
      Guard.value_congr else_ h.2]
  | binOp op left right =>
    rw [Guard.names, List.forall_mem_append] at h
    rw [Guard.value, Guard.value, Guard.value_congr left h.1, Guard.value_congr right h.2]
  | unaryOp op operand => rw [Guard.value, Guard.value, Guard.value_congr operand h]
  | call fn args =>
    cases hfn : fn with
    | ident p =>
      rw [hfn] at h
      rw [Guard.value, Guard.value, Guards.values_congr args h]
    | _ =>
      have hnames : (Guard.call fn args).names = fn.names ++ args.names := by
        rw [hfn]
        rfl
      have hvalue : ∀ env, (Guard.call fn args).value ops env = ops.apply (fn.value ops env) (args.values ops env) := by
        intro env
        rw [hfn]
        rfl
      rw [hnames, List.forall_mem_append] at h
      rw [← hfn, hvalue, hvalue, Guard.value_congr fn h.1, Guards.values_congr args h.2]
  | fieldAcc base field => rw [Guard.value, Guard.value, Guard.value_congr base h]
  | indexAcc base index =>
    rw [Guard.names, List.forall_mem_append] at h
    rw [Guard.value, Guard.value, Guard.value_congr base h.1, Guard.value_congr index h.2]
  | tupleLit elems => rw [Guard.value, Guard.value, Guards.values_congr elems h]
  | listLit elems => rw [Guard.value, Guard.value, Guards.values_congr elems h]
  | destPattern name args => rw [Guard.value, Guard.value, Guards.values_congr args h]
  | other site => rfl

theorem Guards.values_congr (es : Guards) (h : ∀ x ∈ es.names, env x = env' x) :
    es.values ops env = es.values ops env' := by
  cases es with
  | nil => rfl
  | cons head tail =>
    rw [Guards.names, List.forall_mem_append] at h
    rw [Guards.values, Guards.values, Guard.value_congr head h.1, Guards.values_congr tail h.2]

end

end Names

/-- Both fail, or both bind these names alike. -/
def Alike (used : List Name) : Option Env → Option Env → Prop
  | none, none => True
  | some env, some env' => ∀ x ∈ used, env x = env' x
  | _, _ => False

section Alike

variable {schemas : Schemas} {used : List Name} {env env' : Env} {v : Value}

theorem Alike.bind {o o' : Option Env} {f g : Env → Option Env} (h : Alike used o o')
    (hfg : ∀ env env', (∀ x ∈ used, env x = env' x) → Alike used (f env) (g env')) :
    Alike used (o.bind f) (o'.bind g) := by
  cases o with
  | none =>
    cases o' with
    | none => exact trivial
    | some env' => exact h.elim
  | some env =>
    cases o' with
    | none => exact h.elim
    | some env' => exact hfg env env' h

/-- A test that binds nothing. -/
theorem Alike.test (c : Bool) (h : ∀ x ∈ used, env x = env' x) :
    Alike used (if c then some env else none) (if c then some env' else none) := by
  cases c with
  | true => exact h
  | false => exact trivial

theorem bind_alike (h : ∀ x ∈ used, env x = env' x) (x : Name) : ∀ y ∈ used, env.bind x v y = env'.bind x v y := by
  intro y hy
  unfold Env.bind
  by_cases hxy : y = x
  · rw [hxy, Function.update_self, Function.update_self]
  · rw [Function.update_of_ne hxy, Function.update_of_ne hxy, h y hy]

theorem LeafPat.matches_forget (pat : LeafPat) (f : Option Field) (h : ∀ x ∈ used, env x = env' x) :
    Alike used (pat.matches schemas f v env) ((pat.forget schemas f used).matches schemas f v env') := by
  cases pat with
  | bind x =>
    rw [LeafPat.forget]
    by_cases hkeep : enumConstant schemas f x = true ∨ x ∈ used
    · rw [if_pos hkeep]
      rw [LeafPat.matches, LeafPat.matches]
      by_cases henum : enumConstant schemas f x = true
      · rw [if_pos henum, if_pos henum]
        exact .test _ h
      · rw [if_neg henum, if_neg henum]
        exact bind_alike h x
    · rw [if_neg hkeep]
      obtain ⟨henum, hx⟩ := not_or.mp hkeep
      rw [LeafPat.matches, if_neg henum]
      intro y hy
      have hyx : y ≠ x := by
        rintro rfl
        exact hx hy
      rw [Env.bind, Function.update_of_ne hyx, h y hy]
  | wildcard => exact h
  | nil => exact .test _ h
  | int n => exact .test _ h
  | string s => exact .test _ h

theorem FieldPats.matches_forget (pats : FieldPats) (k : Constructor) (field : Name → Value)
    (h : ∀ x ∈ used, env x = env' x) :
    Alike used (pats.matches schemas k field env) ((pats.forget schemas used (some k)).matches schemas k field env') := by
  induction pats generalizing k field env env' with
  | nil => exact h
  | leaf name pat more ih =>
    exact (pat.matches_forget (k.field name) h).bind fun _ _ h => ih k field h
  | nested name module ctor sub more ihsub ihmore =>
    rw [FieldPats.forget, FieldPats.matches, FieldPats.matches]
    cases field name with
    | node m c field' =>
      cases schemas.find module ctor with
      | none => exact trivial
      | some k' =>
        dsimp only
        by_cases hctor : m = module ∧ c = ctor
        · rw [if_pos hctor, if_pos hctor]
          exact (ihsub k' field' h).bind fun _ _ h => ihmore k field h
        · rw [if_neg hctor, if_neg hctor]
          exact trivial
    | _ => exact trivial
  | rest name more ih => exact ih k field (bind_alike h name)

/-- **Names that are not used** do not matter. -/
theorem Pattern.matches_forget (used : List Name) (p : Pattern) :
    Alike used (p.matches schemas v) ((p.forget schemas used).matches schemas v) := by
  cases p with
  | constructor module ctor fields =>
    cases v with
    | node m c field =>
      cases hfind : schemas.find module ctor with
      | none =>
        simp only [Pattern.forget, Pattern.matches, hfind]
        exact trivial
      | some k =>
        simp only [Pattern.forget, Pattern.matches, hfind]
        by_cases hctor : m = module ∧ c = ctor
        · rw [if_pos hctor, if_pos hctor]
          exact fields.matches_forget k field fun _ _ => rfl
        · rw [if_neg hctor, if_neg hctor]
          exact trivial
    | _ => exact trivial
  | leaf pat => exact pat.matches_forget none fun _ _ => rfl

/-- Patterns that are the same but for names match alike. -/
theorem matches_of_forget {p p' : Pattern} (hforget : p.forget schemas used = p'.forget schemas used)
    (hp' : p'.matches schemas v = some env') : ∃ env, p.matches schemas v = some env ∧ ∀ x ∈ used, env x = env' x := by
  have h : Alike used (p.matches schemas v) ((p.forget schemas used).matches schemas v) := p.matches_forget used
  have h' : Alike used (p'.matches schemas v) ((p'.forget schemas used).matches schemas v) := p'.matches_forget used
  rw [hforget] at h
  rw [hp'] at h'
  -- both are compared with what the common pattern binds
  cases hcommon : (p'.forget schemas used).matches schemas v with
  | none =>
    rw [hcommon] at h'
    exact h'.elim
  | some common =>
    rw [hcommon] at h h'
    cases hp : p.matches schemas v with
    | none =>
      rw [hp] at h
      exact h.elim
    | some env =>
      rw [hp] at h
      exact ⟨env, rfl, fun x hx => (h x hx).trans (h' x hx).symm⟩

end Alike

/-! ## What is reported is never selected -/

theorem qualifies_iff {file : RuleFile} {v : Value} {r : Rule} :
    (∃ env, r.qualifies file v = some env) ↔
      ∃ h ∈ r.heads, ∃ env, h.matches file.schemas v = some env ∧ r.holds env = true := by
  unfold Rule.qualifies
  rw [← Option.isSome_iff_exists, List.isSome_findSome?]
  constructor
  · intro h
    obtain ⟨head, hhead, hsome⟩ := List.any_eq_true.mp h
    obtain ⟨env, henv⟩ := Option.isSome_iff_exists.mp hsome
    exact ⟨head, hhead, env, Option.filter_eq_some_iff.mp henv⟩
  · rintro ⟨head, hhead, env, henv⟩
    exact List.any_eq_true.mpr ⟨head, hhead, Option.isSome_iff_exists.mpr ⟨env, Option.filter_eq_some_iff.mpr henv⟩⟩

/-- **Ordered choice**: the rule that is chosen qualifies, and none before it does. -/
theorem choice_first {file : RuleFile} {v : Value} {j : Nat} {env : Env} (h : file.choice v = some (j, env)) :
    (∃ r, file.rules[j]? = some r ∧ r.qualifies file v = some env) ∧
      ∀ i < j, ∀ r, file.rules[i]? = some r → r.qualifies file v = none := by
  obtain ⟨before, ⟨r, i⟩, after, hsplit, hr, hbefore⟩ := List.findSome?_eq_some_iff.mp h
  obtain ⟨env', henv', hpair⟩ := Option.map_eq_some_iff.mp hr
  obtain ⟨rfl, rfl⟩ := Prod.mk.inj hpair
  have hget : ∀ n : Nat, file.rules.zipIdx[n]? = (file.rules[n]?).map fun r => (r, n) := by
    intro n
    rw [List.getElem?_zipIdx]
    simp
  have hat := hget before.length
  rw [hsplit, List.getElem?_append_right (Nat.le_refl _), Nat.sub_self, List.getElem?_cons_zero, eq_comm,
    Option.map_eq_some_iff] at hat
  obtain ⟨r', hr', hsame⟩ := hat
  obtain ⟨rfl, rfl⟩ := Prod.mk.inj hsame
  refine ⟨⟨r', hr', henv'⟩, fun n hn r hrule => ?_⟩
  have hearlier := hget n
  rw [hsplit, List.getElem?_append_left hn, hrule, Option.map_some] at hearlier
  exact Option.map_eq_none_iff.mp (hbefore _ (List.mem_of_getElem? hearlier))

namespace SourceFile

variable {file : SourceFile} {ops : Operations Value} {outer : Name → Value} {v : Value} {env : Env} {j : Nat}

/-- A rule is not chosen when an earlier one qualifies wherever it does. -/
theorem choice_ne {r' : SourceRule} (hr' : file.rules[j]? = some r')
    (h : ∀ head' ∈ r'.heads, ∀ env', head'.matches file.schemas v = some env' → (run ops outer r').holds env' = true →
      ∃ i < j, ∃ r, file.rules[i]? = some r ∧ ∃ head ∈ r.heads, ∃ env, head.matches file.schemas v = some env ∧
        (run ops outer r).holds env = true) :
    (file.dispatched ops outer).choice v ≠ some (j, env) := by
  intro hchoice
  obtain ⟨⟨rule, hrule, hqualifies⟩, hbefore⟩ := choice_first hchoice
  have hget : ∀ {i : Nat} {r : SourceRule}, file.rules[i]? = some r →
      (file.dispatched ops outer).rules[i]? = some (run ops outer r) := by
    intro i r hr
    rw [dispatched, List.getElem?_map, hr, Option.map_some]
  obtain rfl := Option.some.inj ((hget hr').symm.trans hrule)
  obtain ⟨head', hhead', env', hmatches, hholds⟩ := qualifies_iff.mp ⟨env, hqualifies⟩
  obtain ⟨i, hi, r, hr, head, hhead, hfires⟩ := h head' hhead' env' hmatches hholds
  obtain ⟨_, hearlier⟩ : ∃ env, (run ops outer r).qualifies (file.dispatched ops outer) v = some env :=
    qualifies_iff.mpr ⟨head, hhead, hfires⟩
  rw [hbefore i hi _ (hget hr)] at hearlier
  exact absurd hearlier nofun

/-- **A true duplicate** is not chosen: the rule it is a copy of qualifies first. -/
theorem duplicate_unchosen (h : ∃ i < j, ∃ r r', file.rules[i]? = some r ∧ file.rules[j]? = some r' ∧ file.Same r r') :
    (file.dispatched ops outer).choice v ≠ some (j, env) := by
  obtain ⟨i, hi, r, r', hr, hr', hguard, hheads⟩ := h
  refine choice_ne hr' fun head' hhead' env' hmatches hholds => ⟨i, hi, r, hr, ?_⟩
  have hmem := List.mem_map_of_mem (f := Pattern.forget file.schemas (r.guard.elim [] Guard.names)) hhead'
  rw [← hheads] at hmem
  obtain ⟨head, hhead, hforget⟩ := List.mem_map.mp hmem
  obtain ⟨env, henv, hused⟩ := matches_of_forget hforget hmatches
  refine ⟨head, hhead, env, henv, ?_⟩
  unfold Rule.holds run at hholds ⊢
  rw [← hguard] at hholds
  cases hg : r.guard with
  | none => rfl
  | some guard =>
    rw [hg] at hholds hused
    dsimp only [Option.map_some] at hholds ⊢
    rw [← hholds]
    congr 1
    refine guard.value_congr fun x hx => ?_
    rw [hused x hx]

/-- **A covered rule** is not chosen: an unguarded one qualifies first. -/
theorem covered_unchosen {r' : SourceRule} (hr' : file.rules[j]? = some r') (h : file.Covered j r') :
    (file.dispatched ops outer).choice v ≠ some (j, env) := by
  refine choice_ne hr' fun head' hhead' env' hmatches _ => ?_
  obtain ⟨i, hi, r, hr, hguard, head, hhead, hforget⟩ := h head' hhead'
  obtain ⟨env, henv, -⟩ := matches_of_forget hforget hmatches
  refine ⟨i, hi, r, hr, head, hhead, env, henv, ?_⟩
  unfold Rule.holds run
  rw [hguard]
  rfl

end SourceFile

/-- A schema with one constructor, `Lit(int value)`. -/
def litSchema : Schema where
  name := "ast"
  constructors ctor :=
    if ctor = "Lit" then
      some { sumName := "expr", fields := [{ name := "value", typeModule := "", typeName := "int", flag := .none,
                                             isSchema := false }] }
    else none
  enumSums _ := false
  sumConstructors sum := if sum = "expr" then ["Lit"] else []

def litFile (rules : List SourceRule) : SourceFile where
  schemas module := if module = "ast" then some litSchema else none
  schema := litSchema
  imported := rfl
  rules := rules

/-- `ast.Lit(value: v)` -/
def litHead : Pattern := .constructor "ast" "Lit" (.leaf "value" (.bind "v") .nil)

/-- Truth values are 0 and 1, and no predicate holds. -/
def litOps : Operations Value where
  int := .int
  string s := .string (some s)
  bool b := .int (if b then 1 else 0)
  null := .null
  enum _ _ ctor := .enum ctor
  truth v := v.isInt 1
  same _ _ := false
  sameText _ _ := false
  binary _ _ _ := .null
  unary _ _ := .null
  field f
    | .node _ _ field => field f
    | _ => .null
  index _ _ := .null
  tuple _ := .null
  vector _ := .null
  vectorConcat _ _ := .null
  header _ := .make
  ofHeader _ := .null
  seqCount _ _ := 0
  apply _ _ := .null
  answer _ _ := .int 0
  effectful _ _ _ := .null

end Bbq.Ddcgc
