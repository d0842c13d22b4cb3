import Bbq.Peg.First
import Bbq.Peg.May

/-!
# What a run consumes first

The runs of the code of productions, with what they consume first and whether FIRST sets can say so.

* An `Item` is what emitted code consumes by one test: a literal, one character, a token.
* A `Lead` is the first item of a run and whether the run was `plain` up to there: every step did what the sets suppose
  of it. A step is not plain where
  - a condition is false, and what it guards is skipped though it cannot match empty,
  - a literal is empty to the C string functions, or a token matches nothing,
  - a range of characters is tested,
  - a predicate fails,
  - user code returns, or is a helper called by name,
  - a call enters a production, and a token has the name too.
* `Evaluates p s l f s'`: the code of `p` takes `s` to `s'`, is left with `f` and has the lead `l`.
* **`evaluates_of_parseRule`**: every run of a production has a lead.
-/

namespace Bbq.Peg

open Bbq.Lib

variable {σ : Type}

/-- What emitted code consumes by one test. -/
inductive Item
  | literal (value : List UInt8)
  | charset (name : String)
  | token (name : String)
  | any
  | range (lo hi : Int)
  deriving DecidableEq, Repr

/-- How FIRST sets write it: they have nothing for a range of characters. -/
def Item.element : Item → Option FirstElement
  | .literal value => some (.literal value)
  | .charset name => some (.charset name)
  | .token name => some (.token name)
  | .any => some .any
  | .range _ _ => none

/-- The first item of a run, and whether it was plain up to there. A run that fails is plain when the step it failed at
was. -/
structure Lead where
  first : Option Item
  plain : Bool
  deriving DecidableEq, Repr

namespace Lead

def nothing : Lead := ⟨none, true⟩

/-- A step the sets suppose something else of. -/
def odd : Lead := ⟨none, false⟩

/-- Two runs that succeed, one after the other. -/
def andThen (l l' : Lead) : Lead :=
  match l.first with
  | some _ => l
  | none => ⟨l'.first, l.plain && l'.plain⟩

/-- A run that falls through and one behind it that is left with `f`. -/
def before (l : Lead) (f : Flow) (l' : Lead) : Lead :=
  match f with
  | .next => l.andThen l'
  | .ret _ => l'

/-- A run that fails and another tried instead, left with `f`. -/
def orElse (l : Lead) (f : Flow) (l' : Lead) : Lead :=
  match f with
  | .next => l'
  | .ret _ => ⟨l'.first, l.plain && l'.plain⟩

/-- A test for `x`, left with `f`. -/
def test (x : Item) : Flow → Lead
  | .next => ⟨some x, true⟩
  | .ret _ => nothing

def literal (value : List UInt8) (f : Flow) : Lead := if cString value = [] then odd else test (.literal value) f

/-- A call of a token from `s` to `s'`. -/
def token (name : String) (value : Bool) (s s' : State σ) : Lead :=
  if value then (if moved s s' then ⟨some (.token name), true⟩ else odd) else nothing

theorem token_of_moved {name : String} {s s' : State σ} (h : moved s s' = true) :
    token name true s s' = test (.token name) .next := by
  rw [token, if_pos rfl, if_pos h]
  rfl

theorem token_of_not_moved {name : String} {s s' : State σ} (h : moved s s' = false) :
    token name true s s' = odd := by
  rw [token, if_pos rfl, h, if_neg Bool.false_ne_true]

/-- The tight loop over a charset, from `s` to `s'`. -/
def span (name : String) (s s' : State σ) : Lead := if moved s s' then ⟨some (.charset name), true⟩ else nothing

end Lead

/-! ## Runs -/

/-- The state in which the body of a generated function starts. -/
def entered (H : Host σ) (active : List (Rule × Nat)) (r : Rule) (args : String) (s : State σ) : State σ :=
  { s with host := H.enter r args s.pos s.furthest s.host }.record (.call active r s.left)

/-- The state a generated function that was called in `s` returns in, its body having got to `s'`. -/
def returned (H : Host σ) (r : Rule) (s : State σ) (value : Bool) (s' : State σ) : State σ :=
  { s' with host := H.leave r s.pos value s'.pos s'.furthest s'.host }

/-- The code of a phrase of a production runs from one state to another. General rounds are there for every loop, also
where the emitted one is the tight loop over a charset. -/
inductive Evaluates (G : Grammar) (H : Host σ) (ps : Infos) :
    Phrase → State σ → Lead → Flow → State σ → Prop
  | nil {s} : Evaluates G H ps (.seq false []) s .nothing .next s
  | stop {e es s l value s'} : Evaluates G H ps (.expr false e) s l (.ret value) s' →
      Evaluates G H ps (.seq false (e :: es)) s l (.ret value) s'
  | cons {e es s l s₁ l' f s'} : Evaluates G H ps (.expr false e) s l .next s₁ →
      Evaluates G H ps (.seq false es) s₁ l' f s' → Evaluates G H ps (.seq false (e :: es)) s (l.before f l') f s'
  | sequence {es s l f s'} : Evaluates G H ps (.seq false es) s l f s' →
      Evaluates G H ps (.expr false (.sequence es)) s l f s'
  | noAlternative {s} : Evaluates G H ps (.alternatives false []) s .odd .next s
  | last {e s l f s'} : Evaluates G H ps (.expr false e) s l f s' →
      Evaluates G H ps (.alternatives false [e]) s l f s'
  | first {e e' es s l f s'} : Evaluates G H ps (.expr false e) s l f s' → f.value = true →
      Evaluates G H ps (.alternatives false (e :: e' :: es)) s l .next s'
  | later {e e' es s l s₁ l' f s'} : Evaluates G H ps (.expr false e) s l (.ret false) s₁ →
      Evaluates G H ps (.alternatives false (e' :: es)) (s₁.restore s.pos) l' f s' →
      Evaluates G H ps (.alternatives false (e :: e' :: es)) s (l.orElse f l') f s'
  | choice {es s l f s'} : predictive false es = false → Evaluates G H ps (.alternatives false es) s l f s' →
      Evaluates G H ps (.expr false (.choice es)) s l f s'
  | noDispatch {s} : Evaluates G H ps (.dispatch false []) s .odd .next s
  | default {e s l f s'} : Evaluates G H ps (.expr false e) s l f s' → Evaluates G H ps (.dispatch false [e]) s l f s'
  | here {e e' es s l f s'} : peekAt ((firstLiteral e).getD []) s = true →
      Evaluates G H ps (.expr false e) s l f s' → Evaluates G H ps (.dispatch false (e :: e' :: es)) s l f s'
  | elsewhere {e e' es s l f s'} : peekAt ((firstLiteral e).getD []) s = false →
      Evaluates G H ps (.dispatch false (e' :: es)) s l f s' →
      Evaluates G H ps (.dispatch false (e :: e' :: es)) s l f s'
  | predicted {es fuel s s₁ l f s'} : predictive false es = true → skip G fuel s = some s₁ →
      Evaluates G H ps (.dispatch false es) s₁ l f s' → Evaluates G H ps (.expr false (.choice es)) s l f s'
  | enough {body s l s'} : Evaluates G H ps (.expr false body) s l (.ret false) s' →
      Evaluates G H ps (.expr false (.star body)) s .nothing .next (s'.restore s.pos)
  | again {body s l f s₁ l' s'} : Evaluates G H ps (.expr false body) s l f s₁ → f.value = true →
      Evaluates G H ps (.expr false (.star body)) (s₁.record (.again s.left s₁.left)) l' .next s' →
      Evaluates G H ps (.expr false (.star body)) s (l.andThen l') .next s'
  | span {name s s'} : G.isCharsetName name = true → spanWhile (G.is name) s = some s' →
      Evaluates G H ps (.expr false (.star (.charsetRef name))) s (.span name s s') .next s'
  | plusStop {body s l value s'} : Evaluates G H ps (.expr false body) s l (.ret value) s' →
      Evaluates G H ps (.expr false (.plus body)) s l (.ret value) s'
  | plus {body s l s₁ l' s'} : Evaluates G H ps (.expr false body) s l .next s₁ →
      Evaluates G H ps (.expr false (.star body)) s₁ l' .next s' →
      Evaluates G H ps (.expr false (.plus body)) s (l.andThen l') .next s'
  | taken {body s l f s'} : Evaluates G H ps (.expr false body) s l f s' → f.value = true →
      Evaluates G H ps (.expr false (.optional body)) s l .next s'
  | notTaken {body s l s'} : Evaluates G H ps (.expr false body) s l (.ret false) s' →
      Evaluates G H ps (.expr false (.optional body)) s .nothing .next (s'.restore s.pos)
  | and {body s l f s'} : Evaluates G H ps (.expr false body) s l f s' →
      Evaluates G H ps (.expr false (.and body)) s ⟨none, f.value⟩ (.required f.value) (s'.restore s.pos)
  | not {body s l f s'} : Evaluates G H ps (.expr false body) s l f s' →
      Evaluates G H ps (.expr false (.not body)) s ⟨none, !f.value⟩ (.required !f.value) (s'.restore s.pos)
  | group {body s l f s'} : Evaluates G H ps (.expr false body) s l f s' →
      Evaluates G H ps (.expr false (.group body)) s l f s'
  | literal {value fuel s f s'} : cgLiteral G fuel false value s = some (f, s') →
      Evaluates G H ps (.expr false (.literal value)) s (.literal value f) f s'
  | any {s f s'} : consumeIf (fun _ => some true) s = some (f, s') →
      Evaluates G H ps (.expr false .anyExpr) s (.test .any f) f s'
  | charRange {lo hi s f s'} : consumeIf (fun c => some (inRange lo hi c)) s = some (f, s') →
      Evaluates G H ps (.expr false (.charRange lo hi)) s ⟨(Lead.test (.range lo hi) f).first, false⟩ f s'
  | charsetRef {name s f s'} : consumeIf (G.is name) s = some (f, s') →
      Evaluates G H ps (.expr false (.charsetRef name)) s (.test (.charset name) f) f s'
  | tokenRef {name s} : Evaluates G H ps (.expr false (.tokenRef name)) s .odd .next s
  | action {code s f s'} : cgAction H code s = some (f, s') →
      Evaluates G H ps (.expr false (.action code)) s ⟨none, decide (f = .next)⟩ f s'
  | resolver {code body s host l f s'} : H.condition code s.pos s.furthest s.host = (true, host) →
      Evaluates G H ps (.expr false body) { s with host := host } l f s' →
      Evaluates G H ps (.expr false (.resolver code body)) s l f s'
  | skipped {code body s host} : H.condition code s.pos s.furthest s.host = (false, host) →
      Evaluates G H ps (.expr false (.resolver code body)) s ⟨none, nullableOf G ps body⟩ .next
        { s with host := host }
  | callCharset {name args name' s f s'} : G.callee name = .charset name' →
      consumeIf (G.is name') s = some (f, s') →
      Evaluates G H ps (.expr false (.ruleCall name args)) s (.test (.charset name') f) f s'
  | callProduction {name args name' fuel s s₁ l value s'} : G.callee name = .rule (.production name') →
      skip G fuel s = some s₁ → Evaluates G H ps (.rule (.production name')) s₁ l (.ret value) s' →
      Evaluates G H ps (.expr false (.ruleCall name args)) s ⟨l.first, l.plain && !G.isTokenName name⟩
        (.required value) s'
  | callToken {name args name' fuel fuel' active s s₁ value s'} : G.callee name = .rule (.token name') →
      skip G fuel s = some s₁ → parseRule G H fuel' active (.token name') args s₁ = some (value, s') →
      Evaluates G H ps (.expr false (.ruleCall name args)) s (.token name' value s₁ s') (.required value) s'
  | callHelper {name args name' fuel s s₁ value s'} : G.callee name = .helper name' → skip G fuel s = some s₁ →
      callHelper H name' args s₁ = (value, s') →
      Evaluates G H ps (.expr false (.ruleCall name args)) s .odd (.required value) s'
  | rule {name body active args s l f s'} : G.body (.production name) = some body →
      Evaluates G H ps (.seq false body.code) (entered H active (.production name) args s) l f s' →
      Evaluates G H ps (.rule (.production name)) s l (.ret f.value) (returned H (.production name) s f.value s')

/-! ## Every run has a lead -/

variable {G : Grammar} {H : Host σ} {ps : Infos}

/-- Every run of the code is one of `p`. -/
def Follows (G : Grammar) (H : Host σ) (ps : Infos) (p : Phrase) (code : Code σ) : Prop :=
  ∀ s f s', code s = some (f, s') → ∃ l, Evaluates G H ps p s l f s'

/-- The calls of productions are runs of them, and those of tokens are what generated functions do. -/
structure CallsFollow (G : Grammar) (H : Host σ) (ps : Infos) (call : Call σ) : Prop where
  production : ∀ name args s value s', call (.production name) args s = some (value, s') →
    ∃ l, Evaluates G H ps (.rule (.production name)) s l (.ret value) s'
  token : ∀ name args s value s', call (.token name) args s = some (value, s') →
    ∃ fuel active, parseRule G H fuel active (.token name) args s = some (value, s')

/-- The lambda around code. -/
theorem Follows.lambda {p : Phrase} {code : Code σ} (h : Follows G H ps p code) {s s' : State σ} {b : Bool}
    (hl : lambda code s = some (b, s')) : ∃ l f, f.value = b ∧ Evaluates G H ps p s l f s' := by
  obtain ⟨⟨f, t⟩, hf, he⟩ := Option.map_eq_some_iff.mp hl
  obtain ⟨rfl, rfl⟩ := Prod.mk.inj he
  obtain ⟨l, heval⟩ := h s f t hf
  exact ⟨l, f, rfl, heval⟩

theorem follows_cons {e : PegExpr} {es : List PegExpr} {first rest : Code σ}
    (he : Follows G H ps (.expr false e) first) (hes : Follows G H ps (.seq false es) rest) :
    Follows G H ps (.seq false (e :: es)) (andThen first rest) := by
  intro s f s' h
  rw [andThen, Option.bind_eq_some_iff] at h
  obtain ⟨⟨g, s₁⟩, hg, h⟩ := h
  obtain ⟨l, heval⟩ := he s g s₁ hg
  cases g with
  | ret value =>
    cases h
    exact ⟨l, .stop heval⟩
  | next =>
    obtain ⟨l', heval'⟩ := hes s₁ f s' h
    exact ⟨_, .cons heval heval'⟩

theorem follows_tryOr {e e' : PegExpr} {es : List PegExpr} {first rest : Code σ}
    (he : Follows G H ps (.expr false e) first) (hes : Follows G H ps (.alternatives false (e' :: es)) rest) :
    Follows G H ps (.alternatives false (e :: e' :: es)) (tryOr first rest) := by
  intro s f s' h
  rw [tryOr, Option.bind_eq_some_iff] at h
  obtain ⟨⟨b, s₁⟩, hb, h⟩ := h
  obtain ⟨l, g, hg, heval⟩ := he.lambda hb
  cases b with
  | true =>
    cases h
    exact ⟨l, .first heval hg⟩
  | false =>
    obtain rfl := Flow.eq_of_value hg
    obtain ⟨l', heval'⟩ := hes _ f s' h
    exact ⟨_, .later heval heval'⟩

theorem follows_dispatch {e e' : PegExpr} {es : List PegExpr} {first rest : Code σ}
    (he : Follows G H ps (.expr false e) first) (hes : Follows G H ps (.dispatch false (e' :: es)) rest) :
    Follows G H ps (.dispatch false (e :: e' :: es)) fun s =>
      if peekAt ((firstLiteral e).getD []) s then first s else rest s := by
  intro s f s' h
  dsimp only at h
  split at h
  · next hpeek =>
    obtain ⟨l, heval⟩ := he s f s' h
    exact ⟨l, .here hpeek heval⟩
  · next hpeek =>
    obtain ⟨l, heval⟩ := hes s f s' h
    exact ⟨l, .elsewhere (by simpa using hpeek) heval⟩

theorem follows_predicted {fuel : Nat} {es : List PegExpr} {code : Code σ} (hp : predictive false es = true)
    (h : Follows G H ps (.dispatch false es) code) :
    Follows G H ps (.expr false (.choice es)) fun s => (skipUnless G fuel false s).bind code := by
  intro s f s' hrun
  obtain ⟨s₁, hskip, hrun⟩ := Option.bind_eq_some_iff.mp hrun
  obtain ⟨l, heval⟩ := h s₁ f s' hrun
  exact ⟨l, .predicted hp hskip heval⟩

/-- The general rounds of a loop, by induction on their number. -/
theorem follows_rounds {body : PegExpr} {code : Code σ} (h : Follows G H ps (.expr false body) code) (fuel : Nat)
    (s s' : State σ) (hrun : loop (starRound code) fuel s = some s') :
    ∃ l, Evaluates G H ps (.expr false (.star body)) s l .next s' := by
  induction fuel generalizing s with
  | zero => cases hrun
  | succ fuel ih =>
    rw [loop, Option.bind_eq_some_iff] at hrun
    obtain ⟨x, hx, hrun⟩ := hrun
    obtain ⟨⟨b, s₁⟩, hb, he⟩ := Option.map_eq_some_iff.mp hx
    obtain ⟨l, f, hf, heval⟩ := h.lambda hb
    cases b with
    | true =>
      cases he
      obtain ⟨l', heval'⟩ := ih _ hrun
      exact ⟨_, .again heval hf heval'⟩
    | false =>
      cases he
      cases hrun
      obtain rfl := Flow.eq_of_value hf
      exact ⟨_, .enough heval⟩

theorem follows_loop {fuel : Nat} {body : PegExpr} {code : Code σ} (h : Follows G H ps (.expr false body) code)
    {s s' : State σ} {f : Flow} (hrun : cgLoop G fuel body code s = some (f, s')) :
    f = .next ∧ ∃ l, Evaluates G H ps (.expr false (.star body)) s l .next s' := by
  have hgeneral : (loop (starRound code) fuel s).map (fun s' => (Flow.next, s')) = some (f, s') →
      f = .next ∧ ∃ l, Evaluates G H ps (.expr false (.star body)) s l .next s' := by
    intro hs
    obtain ⟨t, ht, he⟩ := Option.map_eq_some_iff.mp hs
    obtain ⟨rfl, rfl⟩ := Prod.mk.inj he
    exact ⟨rfl, follows_rounds h fuel s t ht⟩
  unfold cgLoop at hrun
  split at hrun
  · split at hrun
    · next hname =>
      obtain ⟨t, ht, he⟩ := Option.map_eq_some_iff.mp hrun
      cases he
      exact ⟨rfl, _, .span hname ht⟩
    · exact hgeneral hrun
  · exact hgeneral hrun

theorem follows_plus {fuel : Nat} {body : PegExpr} {code : Code σ} (h : Follows G H ps (.expr false body) code) :
    Follows G H ps (.expr false (.plus body)) (andThen code (cgLoop G fuel body code)) := by
  intro s f s' hrun
  rw [andThen, Option.bind_eq_some_iff] at hrun
  obtain ⟨⟨g, s₁⟩, hg, hrun⟩ := hrun
  obtain ⟨l, heval⟩ := h s g s₁ hg
  cases g with
  | ret value =>
    cases hrun
    exact ⟨l, .plusStop heval⟩
  | next =>
    obtain ⟨rfl, l', heval'⟩ := follows_loop h hrun
    exact ⟨_, .plus heval heval'⟩

theorem follows_optional {body : PegExpr} {code : Code σ} (h : Follows G H ps (.expr false body) code) :
    Follows G H ps (.expr false (.optional body)) (cgOptional code) := by
  intro s f s' hrun
  obtain ⟨⟨b, t⟩, hb, he⟩ := Option.map_eq_some_iff.mp hrun
  obtain ⟨l, g, hg, heval⟩ := h.lambda hb
  cases b with
  | true =>
    cases he
    exact ⟨l, .taken heval hg⟩
  | false =>
    cases he
    obtain rfl := Flow.eq_of_value hg
    exact ⟨_, .notTaken heval⟩

/-- Both predicates put the cursor back behind a run of their body. -/
theorem follows_predicate {wanted : Bool} {body : PegExpr} {code : Code σ}
    (h : Follows G H ps (.expr false body) code) {s s' : State σ} {f : Flow}
    (hrun : cgPredicate wanted code s = some (f, s')) :
    ∃ l g s₁, Evaluates G H ps (.expr false body) s l g s₁ ∧ f = .required (g.value == wanted) ∧
      s' = s₁.restore s.pos := by
  obtain ⟨⟨b, t⟩, hb, he⟩ := Option.map_eq_some_iff.mp hrun
  obtain ⟨l, g, rfl, heval⟩ := h.lambda hb
  dsimp only at he
  rw [require_eq] at he
  obtain ⟨rfl, rfl⟩ := Prod.mk.inj he
  exact ⟨l, g, t, heval, rfl, rfl⟩

theorem follows_and {body : PegExpr} {code : Code σ} (h : Follows G H ps (.expr false body) code) :
    Follows G H ps (.expr false (.and body)) (cgPredicate true code) := by
  intro s f s' hrun
  obtain ⟨l, g, s₁, heval, rfl, rfl⟩ := follows_predicate h hrun
  rw [beq_true]
  exact ⟨_, .and heval⟩

theorem follows_not {body : PegExpr} {code : Code σ} (h : Follows G H ps (.expr false body) code) :
    Follows G H ps (.expr false (.not body)) (cgPredicate false code) := by
  intro s f s' hrun
  obtain ⟨l, g, s₁, heval, rfl, rfl⟩ := follows_predicate h hrun
  rw [beq_false]
  exact ⟨_, .not heval⟩

theorem follows_resolver {code : String} {body : PegExpr} {c : Code σ} (h : Follows G H ps (.expr false body) c) :
    Follows G H ps (.expr false (.resolver code body)) (cgResolver H code c) := by
  intro s f s' hrun
  unfold cgResolver at hrun
  match hc : H.condition code s.pos s.furthest s.host with
  | (true, host) =>
    simp only [hc, if_true] at hrun
    obtain ⟨l, heval⟩ := h _ f s' hrun
    exact ⟨l, .resolver hc heval⟩
  | (false, host) =>
    simp only [hc, Bool.false_eq_true, if_false] at hrun
    cases hrun
    exact ⟨_, .skipped hc⟩

theorem follows_ruleCall {call : Call σ} {fuel : Nat} {name args : String} (hcall : CallsFollow G H ps call) :
    Follows G H ps (.expr false (.ruleCall name args)) (cgRuleCall G H call fuel false name args) := by
  unfold cgRuleCall
  split
  · next name' hcallee => exact fun s f s' h => ⟨_, .callCharset hcallee h⟩
  · next r hcallee =>
    intro s f s' h
    obtain ⟨s₁, hskip, h⟩ := Option.bind_eq_some_iff.mp h
    obtain ⟨⟨value, s₂⟩, hvalue, he⟩ := Option.map_eq_some_iff.mp h
    rw [require_eq] at he
    obtain ⟨rfl, rfl⟩ := Prod.mk.inj he
    cases r with
    | production name' =>
      obtain ⟨l, heval⟩ := hcall.production name' args s₁ value s₂ hvalue
      exact ⟨_, .callProduction hcallee hskip heval⟩
    | token name' =>
      obtain ⟨fuel', active, hrun⟩ := hcall.token name' args s₁ value s₂ hvalue
      exact ⟨_, .callToken hcallee hskip hrun⟩
  · next name' hcallee =>
    intro s f s' h
    obtain ⟨s₁, hskip, he⟩ := Option.map_eq_some_iff.mp h
    rw [require_eq] at he
    obtain ⟨rfl, rfl⟩ := Prod.mk.inj he
    exact ⟨_, .callHelper hcallee hskip rfl⟩

section Expressions

variable {call : Call σ} {fuel : Nat}

mutual

theorem follows_expr (hcall : CallsFollow G H ps call) :
    ∀ e : PegExpr, Follows G H ps (.expr false e) (cgExpr G H call fuel false e)
  | .sequence es => fun s f s' h =>
    let ⟨l, heval⟩ := follows_seq hcall es s f s' h
    ⟨l, .sequence heval⟩
  | .choice es => by
    rw [cgExpr]
    split
    · next hp => exact follows_predicted hp (follows_dispatchAll hcall es)
    · next hp =>
      intro s f s' h
      obtain ⟨l, heval⟩ := follows_alternatives hcall es s f s' h
      exact ⟨l, .choice (by simpa using hp) heval⟩
  | .star body => fun s f s' h => by
    obtain ⟨rfl, heval⟩ := follows_loop (follows_expr hcall body) h
    exact heval
  | .plus body => follows_plus (follows_expr hcall body)
  | .optional body => follows_optional (follows_expr hcall body)
  | .and body => follows_and (follows_expr hcall body)
  | .not body => follows_not (follows_expr hcall body)
  | .literal _ => fun _ _ _ h => ⟨_, .literal h⟩
  | .ruleCall _ _ => follows_ruleCall hcall
  | .action _ => fun _ _ _ h => ⟨_, .action h⟩
  | .resolver _ body => follows_resolver (follows_expr hcall body)
  | .group body => fun s f s' h =>
    let ⟨l, heval⟩ := follows_expr hcall body s f s' h
    ⟨l, .group heval⟩
  | .anyExpr => fun _ _ _ h => ⟨_, .any h⟩
  | .charRange _ _ => fun _ _ _ h => ⟨_, .charRange h⟩
  | .charsetRef _ => fun _ _ _ h => ⟨_, .charsetRef h⟩
  | .tokenRef _ => fun s f s' h => by
    cases h
    exact ⟨_, .tokenRef⟩

theorem follows_seq (hcall : CallsFollow G H ps call) :
    ∀ es : List PegExpr, Follows G H ps (.seq false es) (cgSeq G H call fuel false es)
  | [] => fun s f s' h => by
    cases h
    exact ⟨_, .nil⟩
  | e :: es => follows_cons (follows_expr hcall e) (follows_seq hcall es)

theorem follows_alternatives (hcall : CallsFollow G H ps call) :
    ∀ es : List PegExpr, Follows G H ps (.alternatives false es) (cgAlternatives G H call fuel false es)
  | [] => fun s f s' h => by
    cases h
    exact ⟨_, .noAlternative⟩
  | [e] => fun s f s' h =>
    let ⟨l, heval⟩ := follows_expr hcall e s f s' h
    ⟨l, .last heval⟩
  | e :: e' :: es => follows_tryOr (follows_expr hcall e) (follows_alternatives hcall (e' :: es))

theorem follows_dispatchAll (hcall : CallsFollow G H ps call) :
    ∀ es : List PegExpr, Follows G H ps (.dispatch false es) (cgDispatch G H call fuel false es)
  | [] => fun s f s' h => by
    cases h
    exact ⟨_, .noDispatch⟩
  | [e] => fun s f s' h =>
    let ⟨l, heval⟩ := follows_expr hcall e s f s' h
    ⟨l, .default heval⟩
  | e :: e' :: es => follows_dispatch (follows_expr hcall e) (follows_dispatchAll hcall (e' :: es))

end

end Expressions

theorem lex_of_production {name : String} {body : Body} (h : G.body (.production name) = some body) :
    body.lex = false := by
  obtain ⟨p, -, rfl⟩ := Option.map_eq_some_iff.mp h
  rfl

/-- **Every run of a production has a lead.** -/
theorem evaluates_of_parseRule (fuel : Nat) (active : List (Rule × Nat)) :
    CallsFollow G H ps (parseRule G H fuel active) := by
  induction fuel generalizing active with
  | zero => exact ⟨fun _ _ _ _ _ h => (nomatch h), fun _ _ _ _ _ h => (nomatch h)⟩
  | succ fuel ih =>
    refine ⟨fun name args s value s' h => ?_, fun name args s value s' h => ⟨fuel + 1, active, h⟩⟩
    obtain ⟨body, hbody, h⟩ := Option.bind_eq_some_iff.mp h
    obtain ⟨⟨b, t⟩, hb, he⟩ := Option.map_eq_some_iff.mp h
    obtain ⟨rfl, rfl⟩ := Prod.mk.inj he
    rw [lex_of_production hbody] at hb
    obtain ⟨l, f, rfl, heval⟩ := (follows_seq (ih _) body.code).lambda hb
    exact ⟨l, .rule hbody heval⟩

end Bbq.Peg
