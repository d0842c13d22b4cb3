import Bbq.Peg.Emit

/-!
# What a generated parser may do

Static relations on a grammar and its user code, and what they say of runs.

* A `Phrase` is a piece of emitted code: an expression, a sequence, the rest of a choice, a function.
* `May p m f`: the code of `p` may be left with `f`, having moved the cursor or not (`m`). User code
  counts by what it does in some state.
* `Runs p m x`: the code of `p` may come to evaluate `x`, having moved the cursor before or not.
* **`may_of_parseRule`**: every run of a generated function does what the relations say.

Only failing, leaving and not moving are followed: that a literal and a charset exclude one another is
not.
-/

namespace Bbq.Peg

open Bbq.Lib

variable {σ : Type}

/-- A piece of emitted code. -/
inductive Phrase
  | expr (lex : Bool) (e : PegExpr)
  | seq (lex : Bool) (es : List PegExpr)
  | alternatives (lex : Bool) (es : List PegExpr)
  | dispatch (lex : Bool) (es : List PegExpr)
  | rule (r : Rule)

/-- The flow of `if (!(value)) return false;`. -/
def Flow.required : Bool → Flow
  | true => .next
  | false => .ret false

/-- How a phrase may be left, and whether the cursor has moved then. -/
inductive May (G : Grammar) (H : Host σ) : Phrase → Bool → Flow → Prop
  | nil {lex} : May G H (.seq lex []) false .next
  | stop {lex e es m value} : May G H (.expr lex e) m (.ret value) → May G H (.seq lex (e :: es)) m (.ret value)
  | cons {lex e es m m' f} : May G H (.expr lex e) m .next → May G H (.seq lex es) m' f →
      May G H (.seq lex (e :: es)) (m || m') f
  | sequence {lex es m f} : May G H (.seq lex es) m f → May G H (.expr lex (.sequence es)) m f
  | noAlternative {lex} : May G H (.alternatives lex []) false .next
  | last {lex e m f} : May G H (.expr lex e) m f → May G H (.alternatives lex [e]) m f
  | first {lex e e' es m f} : May G H (.expr lex e) m f → f.value = true →
      May G H (.alternatives lex (e :: e' :: es)) m .next
  | later {lex e e' es m m' f} : May G H (.expr lex e) m' (.ret false) →
      May G H (.alternatives lex (e' :: es)) m f → May G H (.alternatives lex (e :: e' :: es)) m f
  | choice {lex es m f} : predictive lex es = false → May G H (.alternatives lex es) m f →
      May G H (.expr lex (.choice es)) m f
  | noDispatch {lex} : May G H (.dispatch lex []) false .next
  | here {lex e es m f} : May G H (.expr lex e) m f → May G H (.dispatch lex (e :: es)) m f
  | elsewhere {lex e e' es m f} : May G H (.dispatch lex (e' :: es)) m f →
      May G H (.dispatch lex (e :: e' :: es)) m f
  | predicted {lex es m f} {k : Bool} : predictive lex es = true → (k = true → lex = false) →
      May G H (.dispatch lex es) m f → May G H (.expr lex (.choice es)) (k || m) f
  | star {lex body m} : May G H (.expr lex (.star body)) m .next
  | plusStop {lex body m value} : May G H (.expr lex body) m (.ret value) →
      May G H (.expr lex (.plus body)) m (.ret value)
  | plus {lex body m m'} : May G H (.expr lex body) m .next → May G H (.expr lex (.plus body)) (m || m') .next
  | taken {lex body m f} : May G H (.expr lex body) m f → f.value = true →
      May G H (.expr lex (.optional body)) m .next
  | notTaken {lex body m} : May G H (.expr lex body) m (.ret false) → May G H (.expr lex (.optional body)) false .next
  | and {lex body m f} : May G H (.expr lex body) m f → May G H (.expr lex (.and body)) false (.required f.value)
  | not {lex body m f} : May G H (.expr lex body) m f → May G H (.expr lex (.not body)) false (.required !f.value)
  | group {lex body m f} : May G H (.expr lex body) m f → May G H (.expr lex (.group body)) m f
  | literal {lex value m} : (m = false → cString value = []) → May G H (.expr lex (.literal value)) m .next
  | noLiteral {lex value m} : cString value ≠ [] → May G H (.expr lex (.literal value)) m (.ret false)
  | any {lex} : May G H (.expr lex .anyExpr) true .next
  | noAny {lex} : May G H (.expr lex .anyExpr) false (.ret false)
  | charRange {lex lo hi} : May G H (.expr lex (.charRange lo hi)) true .next
  | noCharRange {lex lo hi} : May G H (.expr lex (.charRange lo hi)) false (.ret false)
  | charsetRef {lex name} : May G H (.expr lex (.charsetRef name)) true .next
  | noCharsetRef {lex name} : May G H (.expr lex (.charsetRef name)) false (.ret false)
  | tokenRef {lex name} : May G H (.expr lex (.tokenRef name)) false .next
  | action {lex code p furthest host host' f} : H.action code p furthest host = (f, host') →
      May G H (.expr lex (.action code)) false f
  | resolver {lex code body p furthest host host' m f} : H.condition code p furthest host = (true, host') →
      May G H (.expr lex body) m f → May G H (.expr lex (.resolver code body)) m f
  | noResolver {lex code body p furthest host host'} : H.condition code p furthest host = (false, host') →
      May G H (.expr lex (.resolver code body)) false .next
  | callCharset {lex name args name'} : G.callee name = .charset name' →
      May G H (.expr lex (.ruleCall name args)) true .next
  | noCharset {lex name args name'} : G.callee name = .charset name' →
      May G H (.expr lex (.ruleCall name args)) false (.ret false)
  | callRule {lex name args r m value} {k : Bool} : G.callee name = .rule r → (k = true → lex = false) →
      May G H (.rule r) m (.ret value) → May G H (.expr lex (.ruleCall name args)) (k || m) (.required value)
  | callHelper {lex name args name' p furthest host value n host' m} {k : Bool} : G.callee name = .helper name' →
      (k = true → lex = false) → H.helper name' args p furthest host = (value, n, host') →
      (m = true ↔ 0 < n ∧ p.rest ≠ []) → May G H (.expr lex (.ruleCall name args)) (k || m) (.required value)
  | rule {r body m f} : G.body r = some body → May G H (.seq body.lex body.code) m f →
      May G H (.rule r) m (.ret f.value)

/-- What a phrase may come to evaluate, and whether the cursor has moved then. -/
inductive Runs (G : Grammar) (H : Host σ) : Phrase → Bool → PegExpr → Prop
  | self {lex e} : Runs G H (.expr lex e) false e
  | skipped {name args} : Runs G H (.expr false (.ruleCall name args)) true (.ruleCall name args)
  | head {lex e es m x} : Runs G H (.expr lex e) m x → Runs G H (.seq lex (e :: es)) m x
  | tail {lex e es m m' x} : May G H (.expr lex e) m .next → Runs G H (.seq lex es) m' x →
      Runs G H (.seq lex (e :: es)) (m || m') x
  | sequence {lex es m x} : Runs G H (.seq lex es) m x → Runs G H (.expr lex (.sequence es)) m x
  | first {lex e es m x} : Runs G H (.expr lex e) m x → Runs G H (.alternatives lex (e :: es)) m x
  | later {lex e e' es m m' x} : May G H (.expr lex e) m' (.ret false) →
      Runs G H (.alternatives lex (e' :: es)) m x → Runs G H (.alternatives lex (e :: e' :: es)) m x
  | choice {lex es m x} : predictive lex es = false → Runs G H (.alternatives lex es) m x →
      Runs G H (.expr lex (.choice es)) m x
  | here {lex e es m x} : Runs G H (.expr lex e) m x → Runs G H (.dispatch lex (e :: es)) m x
  | elsewhere {lex e e' es m x} : Runs G H (.dispatch lex (e' :: es)) m x →
      Runs G H (.dispatch lex (e :: e' :: es)) m x
  | predicted {lex es m x} {k : Bool} : predictive lex es = true → (k = true → lex = false) →
      Runs G H (.dispatch lex es) m x → Runs G H (.expr lex (.choice es)) (k || m) x
  | star {lex body m x} : Runs G H (.expr lex body) m x → Runs G H (.expr lex (.star body)) m x
  | again {lex body m x} : Runs G H (.expr lex body) m x → Runs G H (.expr lex (.star body)) true x
  | plus {lex body m x} : Runs G H (.expr lex body) m x → Runs G H (.expr lex (.plus body)) m x
  | plusLoop {lex body m m' x} : May G H (.expr lex body) m .next → Runs G H (.expr lex (.star body)) m' x →
      Runs G H (.expr lex (.plus body)) (m || m') x
  | optional {lex body m x} : Runs G H (.expr lex body) m x → Runs G H (.expr lex (.optional body)) m x
  | and {lex body m x} : Runs G H (.expr lex body) m x → Runs G H (.expr lex (.and body)) m x
  | not {lex body m x} : Runs G H (.expr lex body) m x → Runs G H (.expr lex (.not body)) m x
  | group {lex body m x} : Runs G H (.expr lex body) m x → Runs G H (.expr lex (.group body)) m x
  | resolver {lex code body p furthest host host' m x} : H.condition code p furthest host = (true, host') →
      Runs G H (.expr lex body) m x → Runs G H (.expr lex (.resolver code body)) m x

/-! ## Runs do what the relations say -/

/-- The cursor is behind where it was. -/
def moved (s s' : State σ) : Bool := decide (s'.left < s.left)

@[simp] theorem moved_self (s : State σ) : moved s s = false := by simp [moved]

theorem moved_of_lt {s s' : State σ} (h : s'.left < s.left) : moved s s' = true := decide_eq_true h

theorem moved_of_eq {s s' : State σ} (h : s'.left = s.left) : moved s s' = false := by
  unfold moved
  rw [h]
  exact decide_eq_false (lt_irrefl _)

theorem moved_trans {s s₁ s₂ : State σ} (h : s₁.left ≤ s.left) (h' : s₂.left ≤ s₁.left) :
    moved s s₂ = (moved s s₁ || moved s₁ s₂) := by
  unfold moved
  by_cases h₁ : s₁.left < s.left
  · simp only [h₁, decide_true, Bool.true_or, decide_eq_true_eq]
    omega
  · have he : s₁.left = s.left := by omega
    simp only [he, lt_irrefl, decide_false, Bool.false_or]

variable {G : Grammar} {H : Host σ}

/-- The code does only what `May` says of `p`. -/
def Does (G : Grammar) (H : Host σ) (p : Phrase) (code : Code σ) : Prop :=
  ∀ s f s', code s = some (f, s') → s'.left ≤ s.left ∧ May G H p (moved s s') f

theorem Flow.eq_of_value {f : Flow} (h : f.value = false) : f = .ret false := by
  cases f with
  | next => cases h
  | ret value => exact congrArg Flow.ret h

theorem require_eq {b : Bool} {s : State σ} : require (b, s) = (.required b, s) := by cases b <;> rfl

/-- The lambda around code that does what `May` says. -/
theorem Does.lambda {p : Phrase} {code : Code σ} (h : Does G H p code) {s s' : State σ} {b : Bool}
    (hl : lambda code s = some (b, s')) :
    s'.left ≤ s.left ∧ ∃ f : Flow, f.value = b ∧ May G H p (moved s s') f := by
  obtain ⟨⟨f, t⟩, hf, he⟩ := Option.map_eq_some_iff.mp hl
  obtain ⟨rfl, rfl⟩ := Prod.mk.inj he
  obtain ⟨hle, hmay⟩ := h s f t hf
  exact ⟨hle, f, rfl, hmay⟩

theorem skipUnless_slides {fuel : Nat} {lex : Bool} {s s' : State σ}
    (h : skipUnless G fuel lex s = some s') : Slides s s' ∧ (moved s s' = true → lex = false) := by
  cases lex with
  | true =>
    obtain rfl : s = s' := Option.some.inj h
    exact ⟨Slides.refl s, fun hm => absurd hm (by simp)⟩
  | false => exact ⟨skip_slides h, fun _ => rfl⟩

theorem does_nil {lex : Bool} : Does G H (.seq lex []) fallThrough := by
  intro s f s' h
  cases h
  exact ⟨le_refl _, moved_self s ▸ .nil⟩

theorem does_cons {lex : Bool} {e : PegExpr} {es : List PegExpr} {first rest : Code σ}
    (he : Does G H (.expr lex e) first) (hes : Does G H (.seq lex es) rest) :
    Does G H (.seq lex (e :: es)) (andThen first rest) := by
  intro s f s' h
  rw [andThen, Option.bind_eq_some_iff] at h
  obtain ⟨⟨g, s₁⟩, hg, h⟩ := h
  obtain ⟨hle, hmay⟩ := he s g s₁ hg
  match g with
  | .ret value =>
    cases h
    exact ⟨hle, .stop hmay⟩
  | .next =>
    obtain ⟨hle', hmay'⟩ := hes s₁ f s' h
    exact ⟨le_trans hle' hle, moved_trans hle hle' ▸ .cons hmay hmay'⟩

theorem does_tryOr {lex : Bool} {e e' : PegExpr} {es : List PegExpr} {first rest : Code σ}
    (he : Does G H (.expr lex e) first) (hes : Does G H (.alternatives lex (e' :: es)) rest) :
    Does G H (.alternatives lex (e :: e' :: es)) (tryOr first rest) := by
  intro s f s' h
  rw [tryOr, Option.bind_eq_some_iff] at h
  obtain ⟨⟨b, s₁⟩, hb, h⟩ := h
  obtain ⟨hle, g, hg, hmay⟩ := he.lambda hb
  cases b with
  | true =>
    cases h
    exact ⟨hle, .first hmay hg⟩
  | false =>
    obtain rfl := Flow.eq_of_value hg
    obtain ⟨hle', hmay'⟩ := hes _ f s' h
    exact ⟨hle', .later hmay hmay'⟩

theorem does_dispatch {lex : Bool} {e e' : PegExpr} {es : List PegExpr} {test : State σ → Bool}
    {first rest : Code σ} (he : Does G H (.expr lex e) first) (hes : Does G H (.dispatch lex (e' :: es)) rest) :
    Does G H (.dispatch lex (e :: e' :: es)) fun s => if test s then first s else rest s := by
  intro s f s' h
  dsimp only at h
  split at h
  · exact ⟨(he s f s' h).1, .here (he s f s' h).2⟩
  · exact ⟨(hes s f s' h).1, .elsewhere (hes s f s' h).2⟩

theorem does_predicted {fuel : Nat} {lex : Bool} {es : List PegExpr} {code : Code σ}
    (hp : predictive lex es = true) (h : Does G H (.dispatch lex es) code) :
    Does G H (.expr lex (.choice es)) fun s => (skipUnless G fuel lex s).bind code := by
  intro s f s' hrun
  obtain ⟨s₁, hskip, hrun⟩ := Option.bind_eq_some_iff.mp hrun
  obtain ⟨hslides, hlex⟩ := skipUnless_slides hskip
  obtain ⟨hle, hmay⟩ := h s₁ f s' hrun
  exact ⟨le_trans hle hslides.left_le, moved_trans hslides.left_le hle ▸ .predicted hp hlex hmay⟩

theorem does_loop {fuel : Nat} {lex : Bool} {body : PegExpr} {code : Code σ} (h : Does G H (.expr lex body) code) :
    Does G H (.expr lex (.star body)) (cgLoop G fuel body code) := by
  have general : ∀ s s' : State σ, loop (starRound code) fuel s = some s' → s'.left ≤ s.left := by
    intro s s' hrun
    refine loop_inv (P := fun a : State σ => a.left ≤ s.left) (Q := fun b => b.left ≤ s.left) ?_ ?_
      fuel s s' (le_refl _) hrun
    · intro a a' ha hround
      obtain ⟨⟨b, t⟩, hb, hx⟩ := Option.map_eq_some_iff.mp hround
      cases b with
      | true =>
        cases hx
        exact le_trans (h.lambda hb).1 ha
      | false => cases hx
    · intro a b' ha hround
      obtain ⟨⟨b, t⟩, hb, hx⟩ := Option.map_eq_some_iff.mp hround
      cases b with
      | true => cases hx
      | false =>
        cases hx
        exact ha
  intro s f s' hrun
  have hgeneral : ∀ f s', (loop (starRound code) fuel s).map (fun s' => (Flow.next, s')) = some (f, s') →
      s'.left ≤ s.left ∧ May G H (.expr lex (.star body)) (moved s s') f := by
    intro f s' hs
    obtain ⟨t, ht, he⟩ := Option.map_eq_some_iff.mp hs
    obtain ⟨rfl, rfl⟩ := Prod.mk.inj he
    exact ⟨general s t ht, .star⟩
  unfold cgLoop at hrun
  split at hrun
  · split at hrun
    · obtain ⟨t, ht, he⟩ := Option.map_eq_some_iff.mp hrun
      cases he
      exact ⟨(spanWhile_slides ht).left_le, .star⟩
    · exact hgeneral f s' hrun
  · exact hgeneral f s' hrun

theorem does_plus {lex : Bool} {body : PegExpr} {code rest : Code σ} (h : Does G H (.expr lex body) code)
    (hr : ∀ s f s', rest s = some (f, s') → s'.left ≤ s.left ∧ f = .next) :
    Does G H (.expr lex (.plus body)) (andThen code rest) := by
  intro s f s' hrun
  rw [andThen, Option.bind_eq_some_iff] at hrun
  obtain ⟨⟨g, s₁⟩, hg, hrun⟩ := hrun
  obtain ⟨hle, hmay⟩ := h s g s₁ hg
  match g with
  | .ret value =>
    cases hrun
    exact ⟨hle, .plusStop hmay⟩
  | .next =>
    obtain ⟨hle', rfl⟩ := hr s₁ f s' hrun
    exact ⟨le_trans hle' hle, moved_trans hle hle' ▸ .plus hmay⟩

theorem does_optional {lex : Bool} {body : PegExpr} {code : Code σ} (h : Does G H (.expr lex body) code) :
    Does G H (.expr lex (.optional body)) (cgOptional code) := by
  intro s f s' hrun
  obtain ⟨⟨b, t⟩, hb, he⟩ := Option.map_eq_some_iff.mp hrun
  obtain ⟨hle, g, hg, hmay⟩ := h.lambda hb
  cases b with
  | true =>
    cases he
    exact ⟨hle, .taken hmay hg⟩
  | false =>
    cases he
    obtain rfl := Flow.eq_of_value hg
    exact ⟨le_refl _, (moved_self s).symm ▸ .notTaken hmay⟩

/-- Both predicates put the cursor back. -/
theorem cgPredicate_eq {wanted : Bool} {p : Phrase} {code : Code σ} (h : Does G H p code)
    {s s' : State σ} {f : Flow} (hrun : cgPredicate wanted code s = some (f, s')) :
    s'.left = s.left ∧ ∃ m g, May G H p m g ∧ f = .required (g.value == wanted) := by
  obtain ⟨⟨b, t⟩, hb, he⟩ := Option.map_eq_some_iff.mp hrun
  obtain ⟨-, g, rfl, hmay⟩ := h.lambda hb
  dsimp only at he
  rw [require_eq] at he
  obtain ⟨rfl, rfl⟩ := Prod.mk.inj he
  exact ⟨rfl, _, g, hmay, rfl⟩

theorem does_and {lex : Bool} {body : PegExpr} {code : Code σ} (h : Does G H (.expr lex body) code) :
    Does G H (.expr lex (.and body)) (cgPredicate true code) := by
  intro s f s' hrun
  obtain ⟨hleft, m, g, hmay, rfl⟩ := cgPredicate_eq h hrun
  rw [moved_of_eq hleft, beq_true]
  exact ⟨le_of_eq hleft, .and hmay⟩

theorem does_not {lex : Bool} {body : PegExpr} {code : Code σ} (h : Does G H (.expr lex body) code) :
    Does G H (.expr lex (.not body)) (cgPredicate false code) := by
  intro s f s' hrun
  obtain ⟨hleft, m, g, hmay, rfl⟩ := cgPredicate_eq h hrun
  rw [moved_of_eq hleft, beq_false]
  exact ⟨le_of_eq hleft, .not hmay⟩

/-- `if (at_end() || !test(peek())) return false; advance();` fails in place or moves. -/
theorem does_consumeIf {p : Phrase} {test : UInt8 → Option Bool} (hyes : May G H p true .next)
    (hno : May G H p false (.ret false)) : Does G H p (consumeIf test) := by
  intro s f s' h
  unfold consumeIf at h
  split at h
  · cases h
    exact ⟨le_refl _, (moved_self s).symm ▸ hno⟩
  · next c rest hrest =>
    obtain ⟨b, hb, he⟩ := Option.map_eq_some_iff.mp h
    cases b with
    | true =>
      cases he
      have hmoved : s.advance.left < s.left := by
        simp only [State.left, hrest, State.rest_advance, List.tail_cons, List.length_cons]
        exact Nat.lt_succ_self _
      exact ⟨le_of_lt hmoved, (moved_of_lt hmoved).symm ▸ hyes⟩
    | false =>
      cases he
      exact ⟨le_refl _, (moved_self s).symm ▸ hno⟩

theorem does_literal {fuel : Nat} {lex : Bool} {value : List UInt8} :
    Does G H (.expr lex (.literal value)) (cgLiteral G fuel lex value) := by
  intro s f s' h
  obtain ⟨s₁, hskip, he⟩ := Option.map_eq_some_iff.mp h
  have hle := (skipUnless_slides hskip).1.left_le
  unfold matchStr at he
  split at he
  · next hpeek =>
    cases he
    have hlen := peekAt_length hpeek
    refine ⟨?_, .literal fun hm => ?_⟩
    · rw [State.left_advances]
      omega
    · unfold moved at hm
      rw [State.left_advances] at hm
      have hnot := of_decide_eq_false hm
      exact List.eq_nil_of_length_eq_zero (by omega)
  · next hpeek =>
    cases he
    refine ⟨hle, .noLiteral fun hempty => hpeek ?_⟩
    rw [peekAt, hempty]
    rfl

theorem does_action {lex : Bool} {code : String} : Does G H (.expr lex (.action code)) (cgAction H code) := by
  intro s f s' h
  cases h
  exact ⟨le_refl _, (moved_self s).symm ▸ .action rfl⟩

theorem does_resolver {lex : Bool} {code : String} {body : PegExpr} {c : Code σ}
    (h : Does G H (.expr lex body) c) : Does G H (.expr lex (.resolver code body)) (cgResolver H code c) := by
  intro s f s' hrun
  unfold cgResolver at hrun
  match hc : H.condition code s.pos s.furthest s.host with
  | (true, host) =>
    simp only [hc, if_true] at hrun
    obtain ⟨hle, hmay⟩ := h _ f s' hrun
    exact ⟨hle, .resolver hc hmay⟩
  | (false, host) =>
    simp only [hc, Bool.false_eq_true, if_false] at hrun
    cases hrun
    exact ⟨le_refl _, (moved_self s).symm ▸ .noResolver hc⟩

/-- What `May` says of the functions the code calls. -/
def DoesCalls (G : Grammar) (H : Host σ) (call : Call σ) : Prop :=
  ∀ r args s value s', call r args s = some (value, s') →
    s'.left ≤ s.left ∧ May G H (.rule r) (moved s s') (.ret value)

theorem does_ruleCall {call : Call σ} {fuel : Nat} {lex : Bool} {name args : String}
    (hcall : DoesCalls G H call) :
    Does G H (.expr lex (.ruleCall name args)) (cgRuleCall G H call fuel lex name args) := by
  unfold cgRuleCall
  split
  · next name' hcallee => exact does_consumeIf (.callCharset hcallee) (.noCharset hcallee)
  · next r hcallee =>
    intro s f s' h
    obtain ⟨s₁, hskip, h⟩ := Option.bind_eq_some_iff.mp h
    obtain ⟨⟨value, s₂⟩, hvalue, he⟩ := Option.map_eq_some_iff.mp h
    rw [require_eq] at he
    obtain ⟨rfl, rfl⟩ := Prod.mk.inj he
    obtain ⟨hslides, hlex⟩ := skipUnless_slides hskip
    obtain ⟨hle, hmay⟩ := hcall r args s₁ value s₂ hvalue
    exact ⟨le_trans hle hslides.left_le, moved_trans hslides.left_le hle ▸ .callRule hcallee hlex hmay⟩
  · next name' hcallee =>
    intro s f s' h
    obtain ⟨s₁, hskip, he⟩ := Option.map_eq_some_iff.mp h
    rw [require_eq] at he
    obtain ⟨rfl, rfl⟩ := Prod.mk.inj he
    obtain ⟨hslides, hlex⟩ := skipUnless_slides hskip
    have hleft : (callHelper H name' args s₁).2.left = s₁.left -
        (H.helper name' args s₁.pos s₁.furthest s₁.host).2.1 := State.left_advances _ _
    have hle : (callHelper H name' args s₁).2.left ≤ s₁.left := by omega
    refine ⟨le_trans hle hslides.left_le, moved_trans hslides.left_le hle ▸ .callHelper hcallee hlex rfl ?_⟩
    unfold moved
    rw [decide_eq_true_iff, hleft, ← List.length_pos_iff]
    change _ ↔ 0 < (H.helper name' args s₁.pos s₁.furthest s₁.host).2.1 ∧ 0 < s₁.left
    omega

section Expressions

variable {call : Call σ} {fuel : Nat} {lex : Bool}

mutual

theorem does_expr (hcall : DoesCalls G H call) :
    ∀ e : PegExpr, Does G H (.expr lex e) (cgExpr G H call fuel lex e)
  | .sequence es => fun s f s' h => ⟨(does_seq hcall es s f s' h).1, .sequence (does_seq hcall es s f s' h).2⟩
  | .choice es => by
    rw [cgExpr]
    split
    · next hp => exact does_predicted hp (does_dispatchAll hcall es)
    · next hp =>
      intro s f s' h
      obtain ⟨hle, hmay⟩ := does_alternatives hcall es s f s' h
      exact ⟨hle, .choice (by simpa using hp) hmay⟩
  | .star body => does_loop (does_expr hcall body)
  | .plus body => by
    refine does_plus (does_expr hcall body) fun s f s' h => ?_
    obtain ⟨hle, hmay⟩ := does_loop (does_expr hcall body) s f s' h
    cases hmay
    exact ⟨hle, rfl⟩
  | .optional body => does_optional (does_expr hcall body)
  | .and body => does_and (does_expr hcall body)
  | .not body => does_not (does_expr hcall body)
  | .literal _ => does_literal
  | .ruleCall _ _ => does_ruleCall hcall
  | .action _ => does_action
  | .resolver _ body => does_resolver (does_expr hcall body)
  | .group body => fun s f s' h => ⟨(does_expr hcall body s f s' h).1, .group (does_expr hcall body s f s' h).2⟩
  | .anyExpr => does_consumeIf .any .noAny
  | .charRange _ _ => does_consumeIf .charRange .noCharRange
  | .charsetRef _ => does_consumeIf .charsetRef .noCharsetRef
  | .tokenRef _ => fun s f s' h => by
    cases h
    exact ⟨le_refl _, (moved_self s).symm ▸ .tokenRef⟩

theorem does_seq (hcall : DoesCalls G H call) :
    ∀ es : List PegExpr, Does G H (.seq lex es) (cgSeq G H call fuel lex es)
  | [] => does_nil
  | e :: es => does_cons (does_expr hcall e) (does_seq hcall es)

theorem does_alternatives (hcall : DoesCalls G H call) :
    ∀ es : List PegExpr, Does G H (.alternatives lex es) (cgAlternatives G H call fuel lex es)
  | [] => fun s f s' h => by
    cases h
    exact ⟨le_refl _, (moved_self s).symm ▸ .noAlternative⟩
  | [e] => fun s f s' h => ⟨(does_expr hcall e s f s' h).1, .last (does_expr hcall e s f s' h).2⟩
  | e :: e' :: es => does_tryOr (does_expr hcall e) (does_alternatives hcall (e' :: es))

theorem does_dispatchAll (hcall : DoesCalls G H call) :
    ∀ es : List PegExpr, Does G H (.dispatch lex es) (cgDispatch G H call fuel lex es)
  | [] => fun s f s' h => by
    cases h
    exact ⟨le_refl _, (moved_self s).symm ▸ .noDispatch⟩
  | [e] => fun s f s' h => ⟨(does_expr hcall e s f s' h).1, .here (does_expr hcall e s f s' h).2⟩
  | e :: e' :: es => does_dispatch (does_expr hcall e) (does_dispatchAll hcall (e' :: es))

end

end Expressions

/-- **Every run of a generated function does what `May` says of it.** -/
theorem may_of_parseRule (fuel : Nat) (active : List (Rule × Nat)) : DoesCalls G H (parseRule G H fuel active) := by
  induction fuel generalizing active with
  | zero => intro r args s value s' h; cases h
  | succ fuel ih =>
    intro r args s value s' h
    obtain ⟨body, hbody, h⟩ := Option.bind_eq_some_iff.mp h
    obtain ⟨⟨b, t⟩, hb, he⟩ := Option.map_eq_some_iff.mp h
    obtain ⟨rfl, rfl⟩ := Prod.mk.inj he
    obtain ⟨hle, f, rfl, hmay⟩ := (does_seq (ih _) body.code).lambda hb
    exact ⟨hle, .rule hbody hmay⟩

end Bbq.Peg
