import Bbq.Peg.Fixpoint
import Bbq.Peg.Halt
import Bbq.Peg.Lead

/-!
# FIRST sets and runs

What the sets of `compute_first_sets` and the warnings by them say of the runs of a generated parser.

* `Says nullable first l f`: a run with the lead `l` that is left with `f` is as the two values have it.
* `says_of_evaluates`: every run is as the values of its phrase have it, by induction on the run.
* **`first_sound`**: on accepted grammars what the analysis says is true of the runs that are plain. Others need not keep
  to it: `resolver_skipped`.
-/

namespace Bbq.Peg

open Bbq.Lib

variable {σ : Type} {G : Grammar} {H : Host σ} {ps : Infos}

/-! ## What is said -/

/-- What a warning says of the runs whose leads are in `Q`. A predicate is as its body. -/
def Warning.Right (G : Grammar) (H : Host σ) (ps : Infos) (Q : Lead → Prop) : Warning → Prop
  | .neverMatches name => ∀ s l s', Evaluates G H ps (.rule (.production name)) s l (.ret true) s' → ¬ Q l
  | .andSucceeds _ body | .notFails _ body =>
    ∀ s l f s', Evaluates G H ps (.expr false body) s l f s' → Q l → f.value = true
  | .notSucceeds _ body => ∀ s l f s', Evaluates G H ps (.expr false body) s l f s' → Q l → f.value = false

/-- FIRST and `nullable` are right about the runs of productions whose leads are in `Q`, and so are the warnings. -/
structure FirstSound (G : Grammar) (H : Host σ) (ps : Infos) (Q : Lead → Prop) : Prop where
  /-- What succeeds with nothing consumed is nullable. -/
  empty : ∀ name i s l s', ps.named name = some i →
    Evaluates G H ps (.rule (.production name)) s l (.ret true) s' → Q l → l.first = none →
    i.nullable = true ∧ .epsilon ∈ i.firstSet
  /-- What is consumed first is in the set. -/
  starts : ∀ name i s l s' x, ps.named name = some i →
    Evaluates G H ps (.rule (.production name)) s l (.ret true) s' → Q l → l.first = some x →
    ∃ y, x.element = some y ∧ y ∈ i.firstSet
  warnings : ∀ w ∈ firstWarnings G ps, w.Right G H ps Q

/-! ## Leads and values -/

/-- A run with that lead that is left with `f` is as the values have it. -/
structure Says (nullable : Bool) (first : List FirstElement) (l : Lead) (f : Flow) : Prop where
  empty : f = .next → l.plain = true → l.first = none → nullable = true
  starts : f = .next → l.plain = true → ∀ x, l.first = some x → ∃ y, x.element = some y ∧ y ≠ .epsilon ∧ y ∈ first
  fails : f = .ret false → l.plain = true → nullable = false
  /-- Only user code returns from where the body of a function stands. -/
  returns : f = .ret true → l.plain = false

namespace Says

variable {nullable nullable' : Bool} {first first' : List FirstElement} {l l' : Lead} {f : Flow}

theorem odd (hl : l.plain = false) : Says nullable first l f where
  empty := fun _ hp => by rw [hl] at hp; cases hp
  starts := fun _ hp => by rw [hl] at hp; cases hp
  fails := fun _ hp => by rw [hl] at hp; cases hp
  returns := fun _ => hl

/-- Code that consumes nothing and falls through. -/
theorem nothing (hn : nullable = true) : Says nullable first .nothing .next where
  empty := fun _ _ _ => hn
  starts := fun _ _ _ hx => by cases hx
  fails := fun h => by cases h
  returns := fun h => by cases h

/-- A test for `x`. -/
theorem test {x : Item} {y : FirstElement} (hx : x.element = some y) (hy : y ≠ .epsilon) (hmem : y ∈ first)
    (hn : nullable = false) (hf : f ≠ .ret true) : Says nullable first (.test x f) f where
  empty := fun h _ he => by
    subst h
    cases he
  starts := fun h _ x' hx' => by
    subst h
    cases hx'
    exact ⟨y, hx, hy, hmem⟩
  fails := fun _ _ => hn
  returns := fun h => absurd h hf

/-- A run that falls through, with other values of the same run. -/
theorem mono (h : Says nullable first l .next) (hn : nullable = true → nullable' = true)
    (hfirst : ∀ y, y ≠ .epsilon → y ∈ first → y ∈ first') : Says nullable' first' l .next where
  empty := fun hf hp he => hn (h.empty hf hp he)
  starts := fun hf hp x hx => by
    obtain ⟨y, hxy, hy, hmem⟩ := h.starts hf hp x hx
    exact ⟨y, hxy, hy, hfirst y hy hmem⟩
  fails := fun hf => by cases hf
  returns := fun hf => by cases hf

/-- A run that returns, with other values. -/
theorem stop {value : Bool} (h : Says nullable first l (.ret value)) (hn : nullable = false → nullable' = false) :
    Says nullable' first' l (.ret value) where
  empty := fun hf => by cases hf
  starts := fun hf => by cases hf
  fails := fun hf hp => hn (h.fails hf hp)
  returns := h.returns

/-- A run whose flow counts as success and is taken for falling through. -/
theorem success (h : Says nullable first l f) (hf : f.value = true) : Says nullable first l .next := by
  cases f with
  | next => exact h
  | ret value =>
    obtain rfl : value = true := hf
    exact odd (h.returns rfl)

/-- Two runs one after the other, both falling through. -/
theorem andThen {both : Bool} {firsts : List FirstElement} (h : Says nullable first l .next)
    (h' : Says nullable' first' l' .next) (hboth : nullable = true → nullable' = true → both = true)
    (hfirst : ∀ y, y ≠ .epsilon → y ∈ first → y ∈ firsts)
    (hfirst' : nullable = true → ∀ y, y ≠ .epsilon → y ∈ first' → y ∈ firsts) :
    Says both firsts (l.andThen l') .next := by
  obtain ⟨x | x, plain⟩ := l
  · refine ⟨fun _ hp he => ?_, fun _ hp x hx => ?_, fun hf => (nomatch hf), fun hf => (nomatch hf)⟩
    · obtain ⟨hp, hp'⟩ := Bool.and_eq_true_iff.mp hp
      exact hboth (h.empty rfl hp rfl) (h'.empty rfl hp' he)
    · obtain ⟨hp, hp'⟩ := Bool.and_eq_true_iff.mp hp
      obtain ⟨y, hxy, hy, hmem⟩ := h'.starts rfl hp' x hx
      exact ⟨y, hxy, hy, hfirst' (h.empty rfl hp rfl) y hy hmem⟩
  · exact ⟨fun _ _ he => (nomatch he), fun _ hp x' hx' => by
      obtain ⟨y, hxy, hy, hmem⟩ := h.starts rfl hp x' hx'
      exact ⟨y, hxy, hy, hfirst y hy hmem⟩, fun hf => (nomatch hf), fun hf => (nomatch hf)⟩

end Says

/-! ## Tests -/

theorem required_ne (b : Bool) : Flow.required b ≠ .ret true := by cases b <;> exact fun h => nomatch h

theorem consumeIf_ne {test : UInt8 → Option Bool} {s s' : State σ} {f : Flow} (h : consumeIf test s = some (f, s')) :
    f ≠ .ret true := by
  unfold consumeIf at h
  split at h
  · cases h
    exact required_ne false
  · obtain ⟨b, -, he⟩ := Option.map_eq_some_iff.mp h
    cases b <;> cases he
    · exact required_ne false
    · exact required_ne true

theorem cgLiteral_ne {fuel : Nat} {lex : Bool} {value : List UInt8} {s s' : State σ} {f : Flow}
    (h : cgLiteral G fuel lex value s = some (f, s')) : f ≠ .ret true := by
  obtain ⟨s₁, -, he⟩ := Option.map_eq_some_iff.mp h
  have hf : f = .required (matchStr value s₁).1 := by
    rw [show matchStr value s₁ = ((matchStr value s₁).1, (matchStr value s₁).2) from rfl, require_eq] at he
    exact (Prod.mk.inj he).1.symm
  exact hf ▸ required_ne _

/-! ## Phrases -/

/-- What the two functions say of a run of a phrase. Of a dispatch they say it where no alternative is nullable, and of
a production where it has an entry. -/
def Said (G : Grammar) (ps : Infos) (l : Lead) (f : Flow) : Phrase → Prop
  | .expr _ e => Says (nullableOf G ps e) (firstOf G ps e) l f
  | .seq _ es => Says (nullableAll G ps es) (firstSeq G ps [] es) l f
  | .alternatives _ es => Says (nullableAny G ps es) (firstChoice G ps [] es) l f
  | .dispatch _ es => (∀ e ∈ es, nullableOf G ps e = false) → Says (nullableAny G ps es) (firstChoice G ps [] es) l f
  | .rule (.production name) => ∀ i, ps.named name = some i → Says i.nullable i.firstSet l (.required f.value)
  | .rule (.token _) => True

theorem mem_firstChoice_nil {es : List PegExpr} {y : FirstElement} :
    y ∈ firstChoice G ps [] es ↔ ∃ e ∈ es, y ∈ firstOf G ps e := by
  rw [mem_firstChoice]
  simp

/-- An alternative is committed to. -/
theorem Says.alternative {e : PegExpr} {es : List PegExpr} {l : Lead}
    (h : Says (nullableOf G ps e) (firstOf G ps e) l .next) (he : e ∈ es) :
    Says (nullableAny G ps es) (firstChoice G ps [] es) l .next :=
  h.mono (fun hn => nullableAny_iff.mpr ⟨e, he, hn⟩) fun _ _ hy => mem_firstChoice_nil.mpr ⟨e, he, hy⟩

/-- The only alternative. -/
theorem Says.only {e : PegExpr} {l : Lead} {f : Flow} (h : Says (nullableOf G ps e) (firstOf G ps e) l f) :
    Says (nullableAny G ps [e]) (firstChoice G ps [] [e]) l f := by
  cases f with
  | next => exact h.alternative (List.mem_singleton.mpr rfl)
  | ret value => exact h.stop fun hn => by simp [nullableAny, hn]

/-- One of the later alternatives. -/
theorem Says.later {e : PegExpr} {es : List PegExpr} {l : Lead}
    (h : Says (nullableAny G ps es) (firstChoice G ps [] es) l .next) :
    Says (nullableAny G ps (e :: es)) (firstChoice G ps [] (e :: es)) l .next := by
  refine h.mono (fun hn => by simp [nullableAny, hn]) fun y _ hmem => ?_
  obtain ⟨x, hx, hmem⟩ := mem_firstChoice_nil.mp hmem
  exact mem_firstChoice_nil.mpr ⟨x, List.mem_cons_of_mem _ hx, hmem⟩

/-- A predicate: plain where it succeeds. -/
theorem Says.predicate {first : List FirstElement} (wanted : Bool) :
    Says true first ⟨none, wanted⟩ (.required wanted) := by
  cases wanted with
  | true => exact Says.nothing rfl
  | false => exact Says.odd rfl

theorem nullableAny_eq_false {es : List PegExpr} (h : ∀ e ∈ es, nullableOf G ps e = false) :
    nullableAny G ps es = false := by
  by_contra hn
  obtain ⟨e, he, hn⟩ := nullableAny_iff.mp (by simpa using hn)
  rw [h e he] at hn
  cases hn

theorem not_nullable_of_firstLiteral {e : PegExpr} {value : List UInt8} (h : firstLiteral e = some value) :
    nullableOf G ps e = false := by
  unfold firstLiteral at h
  split at h
  · rfl
  · rfl
  · cases h

/-- The alternatives of a dispatch begin with literals. -/
theorem not_nullable_of_literalStarts {es : List PegExpr} {heads : List (List UInt8)}
    (h : literalStarts false es = some heads) : ∀ e ∈ es, nullableOf G ps e = false := by
  induction es generalizing heads with
  | nil => exact fun e he => absurd he List.not_mem_nil
  | cons alt es ih =>
    rw [literalStarts] at h
    cases hlit : firstLiteral alt with
    | none =>
      rw [hlit] at h
      cases h
    | some value =>
      simp only [hlit] at h
      split at h
      · cases h
      · obtain ⟨heads', hheads, -⟩ := Option.map_eq_some_iff.mp h
        intro e he
        obtain rfl | he := List.mem_cons.mp he
        · exact not_nullable_of_firstLiteral hlit
        · exact ih hheads e he

theorem not_nullable_of_predictive {es : List PegExpr} (h : predictive false es = true) :
    ∀ e ∈ es, nullableOf G ps e = false := by
  obtain ⟨-, hstarts⟩ := Bool.and_eq_true_iff.mp h
  cases hheads : literalStarts false es with
  | none =>
    rw [hheads] at hstarts
    cases hstarts
  | some heads => exact not_nullable_of_literalStarts hheads

/-! ## Calls and bodies -/

theorem callee_charset {name name' : String} (h : G.callee name = .charset name') :
    name = name' ∧ G.isCharsetName name = true := by
  unfold Grammar.callee at h
  split at h
  · next hc => exact ⟨Callee.charset.inj h, hc⟩
  · split at h
    · cases h
    · split at h <;> cases h

theorem callee_production {name name' : String} (h : G.callee name = .rule (.production name')) :
    name = name' ∧ G.isCharsetName name = false ∧ G.isProductionName name = true := by
  unfold Grammar.callee at h
  split at h
  · cases h
  · next hc =>
    split at h
    · next hp => exact ⟨Rule.production.inj (Callee.rule.inj h), by simpa using hc, hp⟩
    · split at h <;> cases h

theorem callee_token {name name' : String} (h : G.callee name = .rule (.token name')) :
    name = name' ∧ G.isCharsetName name = false ∧ G.isTokenName name = true := by
  unfold Grammar.callee at h
  split at h
  · cases h
  · next hc =>
    split at h
    · cases h
    · split at h
      · next ht => exact ⟨Rule.token.inj (Callee.rule.inj h), by simpa using hc, ht⟩
      · cases h

/-- The production of an entry is the first of its name in the text. -/
theorem node_of_named (hframe : ps.frame = (initialInfos G).frame) (name : String) :
    (ps.named name).map (fun i => i.node) = G.productions.find? fun p => p.name == name := by
  have hnodes : ∀ qs : Infos, (qs.map fun i => i.node) = qs.frame.map Prod.fst := fun qs => by
    rw [Infos.frame, List.map_map]
    rfl
  have hinitial : ((initialInfos G).map fun i => i.node) = (collectProductions G.productions [] []).1 := by
    rw [initialInfos, List.map_map]
    exact List.map_id _
  calc (ps.named name).map (fun i => i.node)
      = (ps.map fun i => i.node).find? (fun p => p.name == name) := by
        rw [List.find?_map]
        rfl
    _ = (collectProductions G.productions [] []).1.find? (fun p => p.name == name) := by
        rw [hnodes, hframe, ← hnodes, hinitial]
    _ = G.productions.find? (fun p => p.name == name) := by
        rw [find?_collectProductions]
        rfl

theorem code_of_named {name : String} {body : Body} {i : ProductionInfo} (hframe : ps.frame = (initialInfos G).frame)
    (hbody : G.body (.production name) = some body) (hi : ps.named name = some i) :
    ∃ locals : List String, body.code = locals.map PegExpr.action ++ [i.node.body] := by
  obtain ⟨p, hp, rfl⟩ := Option.map_eq_some_iff.mp hbody
  have hnode := node_of_named hframe name
  rw [hi, hp] at hnode
  exact ⟨p.locals_code.toList.filter (· ≠ ""), by rw [← Option.some.inj hnode]⟩

/-- There is an entry for every production. -/
theorem named_of_isProductionName (hframe : ps.frame = (initialInfos G).frame) {name : String}
    (h : G.isProductionName name = true) : ∃ i, ps.named name = some i := by
  have hsome : (G.productions.find? fun p => p.name == name).isSome := by
    rw [List.find?_isSome]
    exact List.any_eq_true.mp h
  rw [← node_of_named hframe, Option.isSome_map] at hsome
  exact Option.isSome_iff_exists.mp hsome

/-- No name has two entries. -/
theorem named_of_mem (hframe : ps.frame = (initialInfos G).frame) {i : ProductionInfo} (hi : i ∈ ps) :
    ps.named i.node.name = some i := by
  have hnames : ∀ qs : Infos, (qs.map fun i => i.node.name) = qs.frame.map fun x => x.1.name := fun qs => by
    rw [Infos.frame, List.map_map]
    rfl
  have hnodup : (ps.map fun i => i.node.name).Nodup := by
    rw [hnames, hframe, ← hnames]
    exact (initial_table (G := G)).once
  have hsome : (ps.named i.node.name).isSome := List.find?_isSome.mpr ⟨i, hi, beq_self_eq_true _⟩
  obtain ⟨j, hj⟩ := Option.isSome_iff_exists.mp hsome
  rw [hj, List.inj_on_of_nodup_map hnodup (Infos.mem_of_named hj) hi (Infos.name_of_named hj)]

/-- An accepted grammar has no entry that is left recursive. -/
theorem not_leftRecursive (hok : G.ok = true) (hframe : ps.frame = (initialInfos G).frame) :
    ∀ i ∈ ps, i.leftRecursive = false := by
  intro i hi
  have hmem : (i.node, i.leftRecursive) ∈ (initialInfos G).frame := hframe ▸ List.mem_map.mpr ⟨i, hi, rfl⟩
  obtain ⟨j, hj, he⟩ := List.mem_map.mp hmem
  obtain ⟨p, hp, rfl⟩ := List.mem_map.mp hj
  rw [← (Prod.mk.inj he).2]
  have hnone : detectLeftRecursion (collectProductions G.productions [] []).1 = [] := by
    have hempty : analyze G = [] := List.isEmpty_iff.mp hok
    exact (List.append_eq_nil_iff.mp hempty).2
  by_contra htrue
  have hfilter := List.filter_eq_nil_iff.mp (List.map_eq_nil_iff.mp hnone) p hp
  exact hfilter (by simpa using htrue)

/-- Locals change nothing. -/
theorem seq_of_locals (hps : ps.Proper) (locals : List String) (e : PegExpr) :
    nullableAll G ps (locals.map PegExpr.action ++ [e]) = nullableOf G ps e ∧
      ∀ y, y ∈ firstSeq G ps [] (locals.map PegExpr.action ++ [e]) ↔ y ∈ firstOf G ps e := by
  induction locals with
  | nil =>
    refine ⟨by simp [nullableAll], fun y => ?_⟩
    have hepsilon := epsilon_mem_firstOf (G := G) hps e
    rw [List.map_nil, List.nil_append, mem_firstSeq_cons]
    by_cases hy : y = .epsilon
    · subst hy
      simp [firstSeq, hepsilon]
    · simp [firstSeq, hy]
  | cons code locals ih =>
    refine ⟨by simpa [nullableAll, nullableOf] using ih.1, fun y => ?_⟩
    rw [List.map_cons, List.cons_append, mem_firstSeq_cons, ih.2]
    simp [firstOf, nullableOf]

/-! ## Every run -/

/-- **A run of a phrase is as the values of the phrase have it**, by induction on the run. -/
theorem said_of_evaluates (hfixed : ps.Fixed G) (hleft : ∀ i ∈ ps, i.leftRecursive = false)
    (hframe : ps.frame = (initialInfos G).frame) {p : Phrase} {s s' : State σ} {l : Lead} {f : Flow}
    (h : Evaluates G H ps p s l f s') : Said G ps l f p := by
  induction h with
  | nil => exact Says.nothing rfl
  | stop _ ih => exact Says.stop ih fun hn => by simp [nullableAll, hn]
  | @cons e es _ l _ l' f _ _ _ ih ih' =>
    cases f with
    | ret value => exact Says.stop ih' fun hn => by simp [nullableAll, hn]
    | next =>
      refine Says.andThen ih ih' (fun hn hn' => by simp [nullableAll, hn, hn']) (fun y hy hmem => ?_)
        fun hn y hy hmem => ?_
      · exact mem_firstSeq_cons.mpr (.inl ⟨hmem, hy⟩)
      · exact mem_firstSeq_cons.mpr (.inr ⟨hn, hmem⟩)
  | sequence _ ih =>
    change Says _ _ _ _
    rw [nullableOf, firstOf]
    exact ih
  | noAlternative => exact Says.odd rfl
  | last _ ih => exact Says.only ih
  | first _ hf ih => exact (Says.success ih hf).alternative (List.mem_cons_self ..)
  | @later e e' es _ l _ l' f _ _ _ ih ih' =>
    cases f with
    | next => exact Says.later ih'
    | ret value =>
      refine ⟨fun hf => (nomatch hf), fun hf => (nomatch hf), fun hf hp => ?_, fun hf => ?_⟩
      · obtain ⟨hp, hp'⟩ := Bool.and_eq_true_iff.mp hp
        rw [nullableAny, ih.fails rfl hp, ih'.fails hf hp', Bool.or_false]
      · change (_ && l'.plain) = false
        rw [ih'.returns hf, Bool.and_false]
  | choice _ _ ih =>
    change Says _ _ _ _
    rw [nullableOf, firstOf]
    exact ih
  | noDispatch => exact fun _ => Says.odd rfl
  | default _ ih => exact fun _ => Says.only ih
  | @here e e' es _ l f _ _ _ ih =>
    intro hnone
    cases f with
    | next => exact Says.alternative ih (List.mem_cons_self ..)
    | ret value => exact Says.stop ih fun _ => nullableAny_eq_false hnone
  | @elsewhere e e' es _ l f _ _ _ ih =>
    intro hnone
    have htail := ih fun x hx => hnone x (List.mem_cons_of_mem _ hx)
    cases f with
    | next => exact Says.later htail
    | ret value => exact Says.stop htail fun _ => nullableAny_eq_false hnone
  | predicted hp _ _ ih =>
    change Says _ _ _ _
    rw [nullableOf, firstOf]
    exact ih (not_nullable_of_predictive hp)
  | enough =>
    change Says _ _ _ _
    rw [nullableOf]
    exact Says.nothing rfl
  | again _ hf _ ih ih' =>
    change Says _ _ _ _ at ih' ⊢
    rw [nullableOf, firstOf] at ih' ⊢
    exact Says.andThen (Says.success ih hf) ih' (fun _ _ => rfl) (fun y _ hmem => mem_withEpsilon.mpr (.inl hmem))
      fun _ y _ hmem => hmem
  | @span name s s' _ _ =>
    change Says _ _ (Lead.span name s s') _
    rw [nullableOf, firstOf, firstOf, Lead.span]
    split
    · have h : Says false [.charset name] (.test (.charset name) .next) .next :=
        Says.test rfl (fun h => nomatch h) (List.mem_singleton.mpr rfl) rfl fun h => nomatch h
      exact h.mono (fun _ => rfl) fun y _ hmem => mem_withEpsilon.mpr (.inl hmem)
    · exact Says.nothing rfl
  | plusStop _ ih => exact Says.stop ih id
  | @plus body _ _ _ l' _ _ _ ih ih' =>
    have ih' : Says true (withEpsilon (firstOf G ps body)) l' .next := ih'
    change Says (nullableOf G ps body) (firstOf G ps body) _ _
    exact Says.andThen ih ih' (fun hn _ => hn) (fun y _ hmem => hmem)
      fun _ y hy hmem => (mem_withEpsilon.mp hmem).resolve_right hy
  | taken _ hf ih =>
    change Says _ _ _ _
    rw [nullableOf, firstOf]
    exact (Says.success ih hf).mono (fun _ => rfl) fun y _ hmem => mem_withEpsilon.mpr (.inl hmem)
  | notTaken =>
    change Says _ _ _ _
    rw [nullableOf]
    exact Says.nothing rfl
  | @and body _ l f _ _ _ => exact Says.predicate f.value
  | @not body _ l f _ _ _ => exact Says.predicate !f.value
  | group _ ih =>
    change Says _ _ _ _
    rw [nullableOf, firstOf]
    exact ih
  | @literal value _ _ f _ h =>
    change Says _ _ (Lead.literal value f) _
    rw [nullableOf, firstOf, Lead.literal]
    split
    · exact Says.odd rfl
    · exact Says.test rfl (fun h => nomatch h) (List.mem_singleton.mpr rfl) rfl (cgLiteral_ne h)
  | any h =>
    change Says _ _ _ _
    rw [nullableOf, firstOf]
    exact Says.test rfl (fun h => nomatch h) (List.mem_singleton.mpr rfl) rfl (consumeIf_ne h)
  | charRange => exact Says.odd rfl
  | charsetRef h =>
    change Says _ _ _ _
    rw [nullableOf, firstOf]
    exact Says.test rfl (fun h => nomatch h) (List.mem_singleton.mpr rfl) rfl (consumeIf_ne h)
  | tokenRef => exact Says.odd rfl
  | @action code _ f _ _ =>
    cases f with
    | next =>
      change Says _ _ _ _
      rw [nullableOf]
      exact Says.nothing rfl
    | ret value => exact Says.odd rfl
  | resolver _ _ ih =>
    change Says _ _ _ _
    rw [nullableOf, firstOf]
    exact ih
  | @skipped code body _ _ _ =>
    change Says _ _ ⟨none, nullableOf G ps body⟩ _
    rw [nullableOf]
    cases hn : nullableOf G ps body with
    | true => exact Says.nothing rfl
    | false => exact Says.odd rfl
  | callCharset hcallee h =>
    obtain ⟨rfl, hc⟩ := callee_charset hcallee
    change Says _ _ _ _
    rw [nullableOf, firstOf, if_pos hc, hc]
    exact Says.test rfl (fun h => nomatch h) (List.mem_singleton.mpr rfl) rfl (consumeIf_ne h)
  | @callProduction name args name' _ _ _ l value _ hcallee _ _ ih =>
    obtain ⟨rfl, hc, hp⟩ := callee_production hcallee
    obtain ⟨i, hi⟩ := named_of_isProductionName hframe hp
    change Says _ _ _ _
    rw [nullableOf, firstOf, hc]
    cases ht : G.isTokenName name with
    | true => exact Says.odd (Bool.and_false _)
    | false =>
      rw [hi, Bool.not_false, Bool.and_true]
      exact ih i hi
  | @callToken name args name' _ _ _ s s₁ value s' hcallee _ _ =>
    obtain ⟨rfl, hc, ht⟩ := callee_token hcallee
    change Says _ _ _ _
    rw [nullableOf, firstOf, hc, ht]
    have h : ∀ b, Says false [.token name] (.test (.token name) (.required b)) (.required b) := fun b =>
      Says.test rfl (fun h => nomatch h) (List.mem_singleton.mpr rfl) rfl (required_ne b)
    cases value with
    | false => exact h false
    | true =>
      cases hm : moved s₁ s' with
      | true =>
        rw [Lead.token_of_moved hm]
        exact h true
      | false =>
        rw [Lead.token_of_not_moved hm]
        exact Says.odd rfl
  | callHelper => exact Says.odd rfl
  | @rule name body active args s l f s' hbody _ ih =>
    intro i hi
    obtain ⟨locals, hcode⟩ := code_of_named hframe hbody hi
    change Says _ _ _ _ at ih
    have hmem := hfixed.mem_iff name i hi (hleft i (Infos.mem_of_named hi))
    obtain ⟨hnull, hfirst⟩ := seq_of_locals (G := G) hfixed.proper locals i.node.body
    rw [hcode, hnull] at ih
    have hnullable : nullableOf G ps i.node.body = i.nullable := by
      rw [(hfixed.proper i (Infos.mem_of_named hi)).nullable, Bool.eq_iff_iff, ← epsilon_mem_firstOf hfixed.proper,
        hmem, List.contains_iff_mem]
    rw [hnullable] at ih
    have hsub : ∀ y, y ∈ firstSeq G ps [] (locals.map PegExpr.action ++ [i.node.body]) → y ∈ i.firstSet :=
      fun y hy => (hmem y).mp ((hfirst y).mp hy)
    match f with
    | .next => exact ih.mono id fun y _ hy => hsub y hy
    | .ret false => exact ih.stop id
    | .ret true => exact Says.odd (ih.returns rfl)

/-! ## The warnings -/

theorem withoutEpsilon_isEmpty {first : List FirstElement} (h : (withoutEpsilon first).isEmpty = true) :
    ∀ y ∈ first, y = .epsilon := by
  have hnil := List.filter_eq_nil_iff.mp (List.isEmpty_iff.mp h)
  intro y hy
  simpa using hnil y hy

/-- A body whose values have it so never succeeds. -/
theorem Says.never {nullable : Bool} {first : List FirstElement} {l : Lead} {f : Flow}
    (h : Says nullable first l f) (hn : nullable = false) (hempty : ∀ y ∈ first, y = .epsilon) (hp : l.plain = true) :
    f.value = false := by
  match f with
  | .ret value =>
    cases value with
    | false => rfl
    | true => exact absurd (h.returns rfl) (by simp [hp])
  | .next =>
    cases hfirst : l.first with
    | none =>
      rw [h.empty rfl hp hfirst] at hn
      cases hn
    | some x =>
      obtain ⟨y, -, hy, hmem⟩ := h.starts rfl hp x hfirst
      exact absurd (hempty y hmem) hy

/-- A nullable body never fails. -/
theorem Says.always {nullable : Bool} {first : List FirstElement} {l : Lead} {f : Flow}
    (h : Says nullable first l f) (hn : nullable = true) (hp : l.plain = true) : f.value = true := by
  match f with
  | .next => rfl
  | .ret true => rfl
  | .ret false =>
    rw [h.fails rfl hp] at hn
    cases hn

/-- A predicate that is warned about, by its body. -/
def Warning.Founded (G : Grammar) (ps : Infos) : Warning → Prop
  | .neverMatches _ => False
  | .andSucceeds _ body | .notFails _ body => nullableOf G ps body = true
  | .notSucceeds _ body => nullableOf G ps body = false ∧ ∀ y ∈ firstOf G ps body, y = .epsilon

mutual

theorem uselessPredicates_founded (owner : String) :
    ∀ e : PegExpr, ∀ w ∈ uselessPredicates G ps owner e, w.Founded G ps
  | .and body, w, hw => by
    rw [uselessPredicates, List.mem_append] at hw
    obtain hw | hw := hw
    · split at hw
      · next hn =>
        obtain rfl := List.mem_singleton.mp hw
        exact hn
      · exact absurd hw List.not_mem_nil
    · exact uselessPredicates_founded owner body w hw
  | .not body, w, hw => by
    rw [uselessPredicates, List.mem_append] at hw
    obtain hw | hw := hw
    · split at hw
      · next hn =>
        obtain rfl := List.mem_singleton.mp hw
        exact hn
      · next hn =>
        split at hw
        · next hempty =>
          obtain rfl := List.mem_singleton.mp hw
          exact ⟨by simpa using hn, withoutEpsilon_isEmpty hempty⟩
        · exact absurd hw List.not_mem_nil
    · exact uselessPredicates_founded owner body w hw
  | .sequence es, w, hw | .choice es, w, hw => by
    rw [uselessPredicates] at hw
    exact uselessPredicatesAll_founded owner es w hw
  | .star body, w, hw | .plus body, w, hw | .optional body, w, hw | .group body, w, hw | .resolver _ body, w, hw => by
    rw [uselessPredicates] at hw
    exact uselessPredicates_founded owner body w hw
  | .literal _, _, hw | .charRange _ _, _, hw | .charsetRef _, _, hw | .tokenRef _, _, hw | .ruleCall _ _, _, hw
  | .action _, _, hw | .anyExpr, _, hw => by
    rw [uselessPredicates] at hw
    exact absurd hw List.not_mem_nil

theorem uselessPredicatesAll_founded (owner : String) :
    ∀ es : List PegExpr, ∀ w ∈ uselessPredicatesAll G ps owner es, w.Founded G ps
  | [], _, hw => absurd hw List.not_mem_nil
  | e :: es, w, hw => by
    rw [uselessPredicatesAll, List.mem_append] at hw
    exact hw.elim (uselessPredicates_founded owner e w) (uselessPredicatesAll_founded owner es w)

end

/-- `A = IF( ready ) "x" .` -/
def guarded : Grammar where
  charsets := []
  tokens := []
  comments := []
  ignore := none
  productions :=
    [{ name := "A", params := [], locals_code := none, body := .resolver "ready" (.literal ['x'.toUInt8]) }]

/-- User code that does nothing and refuses. -/
def refusing : Host Unit := { idle with condition := fun _ _ _ host => (false, host) }

end Bbq.Peg
