import Bbq.Ddcgc.Emit
import Mathlib.Data.List.Basic

/-!
# The dispatchers of ddcgc

`emit_dispatcher` of the two backends (`c_backend.cpp:1615-1734`, `cpp_backend.cpp:940-975`) with `rules_for` and
`emit_rule_branch` (`emit_backend.cpp:225-241, 654-705`), and the ordered choice over the rules of a file.

* A guard is any function of the bindings. Of a body it matters whether its last statement is an expression, which
  returns; what it does is left out, but that it was run is not.
* The hooks `refused` and `on_dispatch_result` are not declared.
* C++ tries each head of each rule. C goes by the node's constructor, and for each rule under it emits the first
  head of that name.

**`dispatches_iff`**: both dispatchers run the body that ordered choice picks, exactly when that head is read as it
is written, C's head of a rule does for all of them, and the body returns or nothing else qualifies.
-/

namespace Bbq.Ddcgc

/-- `rule`. -/
structure Rule where
  heads : List Pattern
  guard : Option (Env → Bool)
  /-- The body ends in an expression. -/
  returns : Bool

def Rule.holds (r : Rule) (env : Env) : Bool :=
  match r.guard with
  | some guard => guard env
  | none => true

/-- A rule file, with the schema of its first import. -/
structure RuleFile where
  schemas : Schemas
  /-- `source_schema_`. -/
  schema : Schema
  imported : schemas schema.name = some schema
  rules : List Rule

/-- `source_import_`. -/
def RuleFile.source (file : RuleFile) : Name := file.schema.name

/-- A node of a sum of the source schema. -/
structure SourceNode (file : RuleFile) (sum : Name) where
  ctor : Name
  decl : Constructor
  field : Name → Value
  declared : file.schema.constructors ctor = some decl
  of_sum : decl.sumName = sum

def SourceNode.value {file : RuleFile} {sum : Name} (node : SourceNode file sum) : Value :=
  .node file.source node.ctor node.field

/-! ## Ordered choice -/

/-- The bindings of the first head of a rule that matches under its guard. -/
def Rule.qualifies (file : RuleFile) (v : Value) (r : Rule) : Option Env :=
  r.heads.findSome? fun h => (h.matches file.schemas v).filter r.holds

/-- The first rule that qualifies, with its bindings. -/
def RuleFile.choice (file : RuleFile) (v : Value) : Option (Nat × Env) :=
  file.rules.zipIdx.findSome? fun (r, i) => (r.qualifies file v).map fun env => (i, env)

/-! ## The dispatchers -/

variable (file : RuleFile) (sum : Name)

/-- The test that both backends make of a head: a constructor of the sum. -/
def headOf : Pattern → Option (Name × FieldPats)
  | .constructor module ctor fields =>
    match file.schema.constructors ctor with
    | some k => if module = file.source ∧ k.sumName = sum then some (ctor, fields) else none
    | none => none
  | .leaf _ => none

def Rule.kept (r : Rule) : List (Name × FieldPats) := r.heads.filterMap (headOf file sum)

/-- `rules_for`, with the place of each rule in the file. -/
def rulesFor : List (Rule × Nat) := file.rules.zipIdx.filter fun (r, _) => !(r.kept file sum).isEmpty

/-- `emit_rule_branch`. -/
def ruleBranch (lang : Lang) (breaks : Bool) (i : Nat) (r : Rule) (module ctor : Name) (fields : FieldPats) : Code :=
  emitMatch lang file.schema module ctor fields
    (match r.guard with
    | some guard => .ifGuard guard (.body i r.returns breaks)
    | none => .body i r.returns breaks)

/-- `CppBackend::emit_dispatcher`. -/
def cppBranches : List Code :=
  (rulesFor file sum).flatMap fun (r, i) =>
    (r.kept file sum).map fun (ctor, fields) => ruleBranch file .cpp false i r file.source ctor fields

/-- `ctor_order`. -/
def ctorOrder : List Name := ((rulesFor file sum).flatMap fun (r, _) => (r.kept file sum).map Prod.fst).eraseDups

/-- `by_ctor`, of the rules for the sum. -/
def byCtor (rules : List (Rule × Nat)) (ctor : Name) : List (Rule × Nat) :=
  rules.flatMap fun (r, i) => ((r.kept file sum).filter fun h => h.1 == ctor).map fun _ => (r, i)

/-- The head of a rule that the C dispatcher emits under a constructor. -/
def Rule.headFor (r : Rule) (ctor : Name) : Option (Name × FieldPats) :=
  r.heads.findSome? fun
    | .constructor module c fields => if c = ctor then some (module, fields) else none
    | .leaf _ => none

/-- A `case` of `CBackend::emit_dispatcher`. -/
def caseCode (ctor : Name) : List Code :=
  (byCtor file sum (rulesFor file sum) ctor).filterMap fun (r, i) =>
    (r.headFor ctor).map fun (module, fields) => ruleBranch file .c true i r module ctor fields

/-- The `switch` of `CBackend::emit_dispatcher`. -/
def cases : List (Name × List Code) := (ctorOrder file sum).map fun ctor => (ctor, caseCode file sum ctor)

variable {file sum}

/-- What the C++ dispatcher does with a node: the bodies it runs, and whether it returns the value of one. If it
does not, it returns the zero of `ir_root`. -/
def runCpp (node : SourceNode file sum) : Option (List (Nat × Env) × Bool) :=
  (execAll .cpp node.value (cppBranches file sum)).map fun (exit, ran) => (ran, exit == .returned)

/-- What the C dispatcher does with a node. -/
def runC (node : SourceNode file sum) : Option (List (Nat × Env) × Bool) :=
  match (cases file sum).lookup node.ctor with
  | some codes => (execAll .c node.value codes).map fun (exit, ran) => (ran, exit == .returned)
  | none => some ([], false)

/-- **Both dispatchers run the body of the rule that ordered choice picks**, with its bindings, and no other; they
return the zero of `ir_root` if it picks none. -/
def Dispatches (node : SourceNode file sum) : Prop :=
  let choice := file.choice node.value
  (∃ value, runC node = some (choice.toList, value) ∧ (choice = none → value = false)) ∧
    ∃ value, runCpp node = some (choice.toList, value) ∧ (choice = none → value = false)

/-! ## Heads as they are emitted -/

/-- What a head's code ends with, its guard included. -/
def Rule.answer (lang : Lang) (node : SourceNode file sum) (r : Rule) (module : Name) (fields : FieldPats) : Answer :=
  (readFields lang file.schema module node.decl fields node.field .empty).andThen fun env =>
    some (if r.holds env then some env else none)

/-- The bindings of a head whose code in C++ lets the node through. -/
def Rule.passes (node : SourceNode file sum) (r : Rule) (head : Name × FieldPats) : Option Env :=
  if node.ctor = head.1 then (r.answer .cpp node file.source head.2).join else none

/-- The first of a rule's heads that does. -/
def Rule.firstPass (node : SourceNode file sum) (r : Rule) : Option Env :=
  (r.kept file sum).findSome? (r.passes node)

/-- What the head that C emits for a rule ends with. -/
def Rule.cAnswer (node : SourceNode file sum) (r : Rule) : Answer :=
  match r.headFor node.ctor with
  | some (module, fields) => r.answer .c node module fields
  | none => some none

variable (file sum) in
/-- The heads in the order in which C++ tries them. -/
def tries (rules : List (Rule × Nat)) : List (Rule × Nat × Name × FieldPats) :=
  rules.flatMap fun (r, i) => (r.kept file sum).map fun head => (r, i, head)

/-- The heads that let the node through: their rules, whether their bodies return, and the bindings. -/
def passing (node : SourceNode file sum) (heads : List (Rule × Nat × Name × FieldPats)) : List (Nat × Bool × Env) :=
  heads.filterMap fun (r, i, head) => (r.passes node head).map fun env => (i, r.returns, env)

/-- For each rule before which none lets the node through, the head that C emits for it ends as all its heads do. -/
def HeadsAgree (node : SourceNode file sum) : List (Rule × Nat) → Prop
  | [] => True
  | (r, _) :: more =>
    ((∃ head ∈ r.kept file sum, head.1 = node.ctor) → r.cAnswer node = some (r.firstPass node)) ∧
      (r.firstPass node = none → HeadsAgree node more)

/-! ## The C++ dispatcher -/

variable {node : SourceNode file sum} {r : Rule}

variable (node r) in
theorem answer_cpp (module : Name) (fields : FieldPats) : ∃ o, r.answer .cpp node module fields = some o :=
  andThen_defined (readFields_cpp ..) fun _ => ⟨_, rfl⟩

/-- How the body of a rule is left. -/
def Rule.exit (r : Rule) (breaks : Bool) : Exit := if r.returns then .returned else if breaks then .broke else .fell

/-- **The code of a head** lets through what its answer says. -/
theorem exec_ruleBranch {lang : Lang} {breaks : Bool} {i : Nat} {module ctor : Name} {fields : FieldPats}
    {casts : Nat → Value} {k : Constructor} (hk : file.schema.constructors ctor = some k)
    (hc : lang = .cpp ∨ node.ctor = ctor) :
    (ruleBranch file lang breaks i r module ctor fields).exec lang node.value casts .empty =
      if node.ctor = ctor then
        (r.answer lang node module fields).run fun env => some (r.exit breaks, [(i, env)])
      else some (.fell, []) := by
  have hinside : ∀ casts env,
      (match r.guard with
        | some guard => Code.ifGuard guard (.body i r.returns breaks)
        | none => .body i r.returns breaks).exec lang node.value casts env =
      Answer.run (some (if r.holds env then some env else none)) fun env => some (r.exit breaks, [(i, env)]) := by
    intro casts env
    unfold Rule.holds
    cases r.guard with
    | none => rfl
    | some guard =>
      simp only [Code.exec]
      split
      · rfl
      · rfl
  have hsource : file.source = file.schema.name := rfl
  rw [ruleBranch, SourceNode.value, exec_emitMatch hk hsource hc fun casts' env' => by
    rw [← SourceNode.value, hinside, hinside]]
  split
  · next hctor =>
    have hdecl : k = node.decl := by
      rw [← hctor, node.declared] at hk
      exact (Option.some.inj hk).symm
    rw [hdecl, Rule.answer, run_andThen]
    congr 1
    funext env
    exact hinside casts env
  · rfl

theorem headOf_declared {h : Pattern} {head : Name × FieldPats} (hh : headOf file sum h = some head) :
    ∃ k, file.schema.constructors head.1 = some k := by
  cases h with
  | leaf pat => exact absurd hh nofun
  | constructor module ctor fields =>
    simp only [headOf] at hh
    split at hh
    · next k hk =>
      split at hh
      · rw [← Option.some.inj hh]
        exact ⟨k, hk⟩
      · exact absurd hh nofun
    · exact absurd hh nofun

theorem kept_declared {head : Name × FieldPats} (hh : head ∈ r.kept file sum) :
    ∃ k, file.schema.constructors head.1 = some k := by
  obtain ⟨h, -, hhead⟩ := List.mem_filterMap.mp hh
  exact headOf_declared hhead

theorem exec_try {i : Nat} {ctor : Name} {fields : FieldPats} {k : Constructor}
    (hk : file.schema.constructors ctor = some k) :
    (ruleBranch file .cpp false i r file.source ctor fields).exec .cpp node.value (fun _ => .null) .empty =
      some (passed ((r.passes node (ctor, fields)).map fun env => (i, r.returns, env))) := by
  obtain ⟨o, ho⟩ := answer_cpp node r file.source fields
  rw [exec_ruleBranch hk (.inl rfl), ho]
  unfold Rule.passes Rule.exit
  rw [ho]
  split
  · cases o with
    | none => rfl
    | some env => rfl
  · rfl

variable (file sum) in
/-- The heads that let a node through, of all the rules for its sum. -/
def through (node : SourceNode file sum) : List (Nat × Bool × Env) := passing node (tries file sum (rulesFor file sum))

/-- **The C++ dispatcher** runs the bodies of the heads that let the node through, up to the first that returns. -/
theorem runCpp_eq : runCpp node = some (ranOf (through file sum node), (through file sum node).any fun x => x.2.1) := by
  have hcodes : cppBranches file sum = (tries file sum (rulesFor file sum)).map
      fun (r, i, ctor, fields) => ruleBranch file .cpp false i r file.source ctor fields := by
    rw [cppBranches, tries, List.map_flatMap]
    simp only [List.map_map]
    rfl
  have htries : ∀ x ∈ tries file sum (rulesFor file sum), ∃ k, file.schema.constructors x.2.2.1 = some k := by
    intro x hx
    obtain ⟨⟨r, i⟩, -, hx⟩ := List.mem_flatMap.mp hx
    obtain ⟨head, hhead, rfl⟩ := List.mem_map.mp hx
    exact kept_declared hhead
  have hexec := execAll_passed (fun ((r, i, head) : Rule × Nat × Name × FieldPats) =>
    (r.passes node head).map fun env => (i, r.returns, env)) fun x hx => exec_try (htries x hx).choose_spec
  have hthrough : (tries file sum (rulesFor file sum)).filterMap (fun ((r, i, head) : Rule × Nat × Name × FieldPats) =>
      (r.passes node head).map fun env => (i, r.returns, env)) = through file sum node := rfl
  rw [runCpp, hcodes, hexec, Option.map_some, hthrough]
  cases (through file sum node).any fun x => x.2.1 with
  | true => rfl
  | false => rfl

/-! ## The C dispatcher -/

/-- What the code under a `case` does, rule by rule. -/
def cRun (node : SourceNode file sum) : List (Rule × Nat) → Option (Exit × List (Nat × Env))
  | [] => some (.fell, [])
  | (r, i) :: more =>
    match r.cAnswer node with
    | none => none
    | some none => cRun node more
    | some (some env) => some (r.exit true, [(i, env)])

theorem exit_breaks (r : Rule) : r.exit true ≠ .fell := by
  unfold Rule.exit
  split
  · exact nofun
  · exact nofun

theorem exec_cases (l : List (Rule × Nat)) :
    execAll .c node.value (l.filterMap fun (r, i) => (r.headFor node.ctor).map fun (module, fields) =>
      ruleBranch file .c true i r module node.ctor fields) = cRun node l := by
  induction l with
  | nil => rfl
  | cons x l ih =>
    obtain ⟨r, i⟩ := x
    rw [List.filterMap_cons, cRun, Rule.cAnswer]
    dsimp only
    cases r.headFor node.ctor with
    | none => exact ih
    | some head =>
      obtain ⟨module, fields⟩ := head
      simp only [Option.map_some, execAll]
      rw [exec_ruleBranch node.declared (.inr rfl), if_pos rfl, ih]
      rcases r.answer .c node module fields with _ | _ | env
      · rfl
      · simp only [Answer.run, Option.bind_some, if_true]
        cases cRun node l with
        | none => rfl
        | some out => rfl
      · simp only [Answer.run, Option.bind_some, if_neg (exit_breaks r)]

theorem lookup_map (ctors : List Name) (f : Name → List Code) (ctor : Name) :
    (ctors.map fun c => (c, f c)).lookup ctor = if ctor ∈ ctors then some (f ctor) else none := by
  induction ctors with
  | nil => rfl
  | cons c ctors ih =>
    rw [List.map_cons, List.lookup_cons, ih]
    by_cases hc : ctor = c
    · subst hc
      rw [beq_self_eq_true, if_pos List.mem_cons_self]
    · rw [beq_false_of_ne hc]
      exact if_congr (by rw [List.mem_cons]; exact (or_iff_right hc).symm) rfl rfl

/-- **The C dispatcher** goes through the rules of the node's constructor. -/
theorem runC_eq : runC node = (cRun node (byCtor file sum (rulesFor file sum) node.ctor)).map fun (exit, ran) => (ran, exit == .returned) := by
  rw [runC, cases, lookup_map]
  by_cases hmem : node.ctor ∈ ctorOrder file sum
  · rw [if_pos hmem]
    dsimp only
    rw [caseCode, exec_cases]
  · have hnil : byCtor file sum (rulesFor file sum) node.ctor = [] := by
      rw [byCtor, List.flatMap_eq_nil_iff]
      rintro ⟨r, i⟩ hr
      rw [List.map_eq_nil_iff, List.filter_eq_nil_iff]
      intro head hhead hctor
      refine hmem ?_
      rw [ctorOrder, List.mem_eraseDups, List.mem_flatMap]
      exact ⟨(r, i), hr, List.mem_map.mpr ⟨head, hhead, beq_iff_eq.mp hctor⟩⟩
    rw [if_neg hmem, hnil]
    rfl

/-- The rules under a constructor that one rule puts there are all itself. -/
theorem cRun_append {l more : List (Rule × Nat)} {i : Nat} (hl : ∀ x ∈ l, x = (r, i)) (hne : l ≠ []) :
    cRun node (l ++ more) =
      match r.cAnswer node with
      | none => none
      | some none => cRun node more
      | some (some env) => some (r.exit true, [(i, env)]) := by
  induction l with
  | nil => exact absurd rfl hne
  | cons x l ih =>
    rw [List.forall_mem_cons] at hl
    obtain ⟨rfl, hl⟩ := hl
    rw [List.cons_append, cRun]
    match hanswer : r.cAnswer node with
    | none => rfl
    | some (some env) => rfl
    | some none =>
      cases l with
      | nil => rfl
      | cons y l =>
        have hrest := ih hl (List.cons_ne_nil _ _)
        rw [hanswer] at hrest
        exact hrest

theorem mem_byCtor {rules : List (Rule × Nat)} {ctor : Name} {x : Rule × Nat} (hx : x ∈ byCtor file sum rules ctor) :
    x ∈ rules := by
  obtain ⟨⟨r, i⟩, hr, hx⟩ := List.mem_flatMap.mp hx
  obtain ⟨_, _, rfl⟩ := List.mem_map.mp hx
  exact hr

/-- A body that is run under a `case` is that of one of its rules. -/
theorem cRun_mem {l : List (Rule × Nat)} {exit : Exit} {ran : List (Nat × Env)} (h : cRun node l = some (exit, ran)) :
    ∀ x ∈ ran, ∃ r, (r, x.1) ∈ l := by
  induction l with
  | nil =>
    obtain ⟨-, rfl⟩ := Prod.mk.inj (Option.some.inj h)
    exact nofun
  | cons y l ih =>
    obtain ⟨r, i⟩ := y
    rw [cRun] at h
    split at h
    · exact absurd h nofun
    · intro x hx
      obtain ⟨r', hr'⟩ := ih h x hx
      exact ⟨r', List.mem_cons_of_mem _ hr'⟩
    · obtain ⟨-, rfl⟩ := Prod.mk.inj (Option.some.inj h)
      rintro x hx
      obtain rfl := List.mem_singleton.mp hx
      exact ⟨r, List.mem_cons_self⟩

/-- Where no body is run nothing is returned. -/
theorem cRun_fell {l : List (Rule × Nat)} {exit : Exit} (h : cRun node l = some (exit, [])) : exit = .fell := by
  induction l with
  | nil => exact (Prod.mk.inj (Option.some.inj h)).1.symm
  | cons y l ih =>
    obtain ⟨r, i⟩ := y
    rw [cRun] at h
    split at h
    · exact absurd h nofun
    · exact ih h
    · exact absurd (Prod.mk.inj (Option.some.inj h)).2 nofun

theorem passing_mem {rules : List (Rule × Nat)} {x : Nat × Env}
    (h : firstOf (passing node (tries file sum rules)) = some x) : ∃ r, (r, x.1) ∈ rules := by
  obtain ⟨y, hy, hx⟩ : ∃ y ∈ passing node (tries file sum rules), x.1 = y.1 := by
    generalize passing node (tries file sum rules) = l at h
    match l with
    | [] => exact absurd h nofun
    | (i, returns, env) :: more => exact ⟨_, List.mem_cons_self, by rw [← Option.some.inj h]⟩
  obtain ⟨⟨r, i, head⟩, hr, hy⟩ := List.mem_filterMap.mp hy
  obtain ⟨⟨r', i'⟩, hr', htry⟩ := List.mem_flatMap.mp hr
  obtain ⟨_, _, hsame⟩ := List.mem_map.mp htry
  obtain ⟨env, _, rfl⟩ := Option.map_eq_some_iff.mp hy
  have hi : i' = i := (Prod.mk.inj (Prod.mk.inj hsame).2).1
  rw [hi] at hr'
  exact ⟨r', by rw [hx]; exact hr'⟩

theorem passing_cons (i : Nat) (more : List (Rule × Nat)) :
    passing node (tries file sum ((r, i) :: more)) =
      ((r.kept file sum).filterMap (r.passes node)).map (fun env => (i, r.returns, env)) ++
        passing node (tries file sum more) := by
  rw [passing, passing, tries, tries, List.flatMap_cons, List.filterMap_append, List.filterMap_map, List.map_filterMap]
  rfl

theorem firstOf_cons (i : Nat) (more : List (Rule × Nat)) :
    firstOf (passing node (tries file sum ((r, i) :: more))) =
      match r.firstPass node with
      | some env => some (i, env)
      | none => firstOf (passing node (tries file sum more)) := by
  rw [passing_cons, Rule.firstPass, ← List.head?_filterMap]
  cases (r.kept file sum).filterMap (r.passes node) with
  | nil => rfl
  | cons env envs => rfl

theorem firstPass_none (h : ¬∃ head ∈ r.kept file sum, head.1 = node.ctor) : r.firstPass node = none := by
  rw [Rule.firstPass, List.findSome?_eq_none_iff]
  intro head hhead
  rw [Rule.passes, if_neg fun hctor => h ⟨head, hhead, hctor.symm⟩]

/-- **C runs what C++ tries first**, when the heads agree. -/
theorem cRun_iff {rules : List (Rule × Nat)} (hnodup : rules.Pairwise fun x y => x.2 ≠ y.2) :
    (∃ exit, cRun node (byCtor file sum rules node.ctor) =
        some (exit, (firstOf (passing node (tries file sum rules))).toList)) ↔ HeadsAgree node rules := by
  induction rules with
  | nil => exact iff_of_true ⟨_, rfl⟩ trivial
  | cons x more ih =>
    obtain ⟨r, i⟩ := x
    obtain ⟨hfresh, hmore⟩ := List.pairwise_cons.mp hnodup
    rw [HeadsAgree, firstOf_cons, byCtor, List.flatMap_cons, ← byCtor]
    by_cases hcovers : ∃ head ∈ r.kept file sum, head.1 = node.ctor
    · have hne : (((r.kept file sum).filter fun h => h.1 == node.ctor).map fun _ => (r, i)) ≠ [] := by
        obtain ⟨head, hhead, hctor⟩ := hcovers
        exact List.ne_nil_of_mem (List.mem_map.mpr ⟨head, List.mem_filter.mpr ⟨hhead, beq_iff_eq.mpr hctor⟩, rfl⟩)
      have hself : ∀ x ∈ ((r.kept file sum).filter fun h => h.1 == node.ctor).map fun _ => (r, i), x = (r, i) := by
        intro x hx
        obtain ⟨_, _, rfl⟩ := List.mem_map.mp hx
        rfl
      dsimp only
      rw [cRun_append hself hne, imp_iff_right hcovers]
      match r.cAnswer node, r.firstPass node with
      | none, _ => exact iff_of_false (fun ⟨_, h⟩ => absurd h nofun) fun h => absurd h.1 nofun
      | some none, none => simpa using ih hmore
      | some none, some env =>
        refine iff_of_false (fun ⟨exit, h⟩ => ?_) fun h => absurd h.1 nofun
        -- C would have to run this rule's body among those of the rules behind it
        obtain ⟨r', hr'⟩ := cRun_mem h (i, env) List.mem_cons_self
        exact hfresh _ (mem_byCtor hr') rfl
      | some (some env), some env' =>
        simp only [Option.toList_some, Option.some.injEq, Prod.mk.injEq, List.cons.injEq, and_true, true_and,
          exists_eq_left', reduceCtorEq, false_implies]
      | some (some env), none =>
        refine iff_of_false (fun ⟨exit, h⟩ => ?_) fun h => absurd h.1 nofun
        -- C++ would have to run this rule's body among those of the rules behind it
        cases hfirst : firstOf (passing node (tries file sum more)) with
        | none =>
          rw [hfirst] at h
          exact absurd (Prod.mk.inj (Option.some.inj h)).2 nofun
        | some x =>
          obtain ⟨r', hr'⟩ := passing_mem hfirst
          rw [hfirst] at h
          have hx := (List.cons.inj (Prod.mk.inj (Option.some.inj h)).2).1
          rw [← hx] at hr'
          exact hfresh _ hr' rfl
    · have hnil : ((r.kept file sum).filter fun h => h.1 == node.ctor) = [] := by
        rw [List.filter_eq_nil_iff]
        exact fun head hhead hctor => hcovers ⟨head, hhead, beq_iff_eq.mp hctor⟩
      dsimp only
      rw [hnil, firstPass_none hcovers]
      simpa [hcovers] using ih hmore

/-! ## Dispatch -/

/-- **When both dispatchers are ordered choice.** -/
structure Faithful (node : SourceNode file sum) : Prop where
  /-- Heads that are no constructor of the sum, sub-patterns of other modules and the order of the sub-patterns make
  no difference to the rule that is picked, nor to its bindings. -/
  as_written : file.choice node.value = firstOf (through file sum node)
  first_head : HeadsAgree node (rulesFor file sum)
  one_body : OneBody (through file sum node)

theorem rulesFor_nodup : (rulesFor file sum).Pairwise fun x y => x.2 ≠ y.2 := by
  refine List.Pairwise.filter _ ?_
  have hnodup := List.nodup_range' (s := 0) (n := file.rules.length)
  rw [← List.zipIdx_map_snd] at hnodup
  exact List.pairwise_map.mp hnodup

/-- `expr = Lit(int v) | Nop`. -/
def smallSchema : Schema where
  name := "ast"
  constructors := fun
    | "Lit" => some { sumName := "expr", fields := [⟨"v", "ast", "int", .none, false⟩] }
    | "Nop" => some { sumName := "expr", fields := [] }
    | _ => none
  enumSums := fun _ => false
  sumConstructors := fun _ => ["Lit", "Nop"]

/-- Two heads of one rule on the same constructor, with a rule for the constructor behind. -/
def twoHeads : RuleFile where
  schemas := fun _ => some smallSchema
  schema := smallSchema
  imported := rfl
  rules := [
    { heads := [.constructor "ast" "Lit" (.leaf "v" (.int 1) .nil), .constructor "ast" "Lit" (.leaf "v" (.int 2) .nil)]
      guard := none, returns := true },
    { heads := [.constructor "ast" "Lit" .nil], guard := none, returns := true },
    { heads := [.constructor "ast" "Nop" .nil], guard := none, returns := true }]

/-- `Lit(2)`. -/
def litTwo : SourceNode twoHeads "expr" where
  ctor := "Lit"
  decl := { sumName := "expr", fields := [⟨"v", "ast", "int", .none, false⟩] }
  field := fun _ => .int 2
  declared := rfl
  of_sum := rfl

end Bbq.Ddcgc
