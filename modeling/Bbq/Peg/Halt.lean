import Mathlib.Logic.Relation
import Mathlib.Data.Fintype.Card
import Mathlib.Data.Finite.Prod
import Mathlib.Order.WellFounded
import Bbq.Peg.Analysis
import Bbq.Peg.May

/-!
# When generated parsers terminate

* `Terminates`: with enough fuel the parser comes to a result, no rule was called again at the
  position it was called at while it was running, and no repetition went round on nothing.
* `Grounded` is the condition on the grammar and its user code: no comment form opens with the empty
  string, no charset predicate runs into itself, no body of a repetition succeeds without moving the
  cursor, and no rule comes to call itself before the cursor has moved.
* **`terminates`**: the parser of a grounded grammar terminates on every input.

The induction is on the characters left, then on the rules along calls that come before the cursor
moves (`LeftCall` has no cycle), then on the expression.
-/

namespace Bbq.Peg

open Bbq.Lib Relation

variable {σ : Type}

/-! ## Skipping ends -/

theorem spanOf_ends {holds : UInt8 → Option Bool} (h : ∀ c, (holds c).isSome) (cs : List UInt8) :
    ∃ n, spanOf holds cs = some n := by
  induction cs with
  | nil => exact ⟨0, rfl⟩
  | cons c cs ih =>
    obtain ⟨n, hn⟩ := ih
    obtain ⟨b, hb⟩ := Option.isSome_iff_exists.mp (h c)
    cases b with
    | true => exact ⟨n + 1, by simp [spanOf, hb, hn]⟩
    | false => exact ⟨0, by simp [spanOf, hb]⟩

theorem spanWhile_ends {holds : UInt8 → Option Bool} (h : ∀ c, (holds c).isSome) (s : State σ) :
    ∃ s', spanWhile holds s = some s' := by
  obtain ⟨n, hn⟩ := spanOf_ends h s.pos.rest
  exact ⟨s.advances n, by simp [spanWhile, hn]⟩

theorem pos_left {s : State σ} {c : UInt8} {rest : List UInt8} (h : s.pos.rest = c :: rest) : 0 < s.left := by
  unfold State.left
  rw [h]
  exact Nat.succ_pos _

/-- What a round inside a comment counts down: a character weighs two levels of nesting. -/
def commentSize (a : Nat × State σ) : Nat := 2 * a.2.left + a.1

/-- A round of a walk over a comment that goes on makes `commentSize` smaller. -/
def Shrinks (round : Nat × State σ → Option ((Nat × State σ) ⊕ State σ)) : Prop :=
  ∀ a, ∃ x, round a = some x ∧ ∀ a', x = .inl a' → commentSize a' < commentSize a

theorem structuredRound_shrinks : Shrinks (structuredRound (σ := σ)) := by
  rintro ⟨depth, s⟩
  cases depth with
  | zero => exact ⟨_, rfl, fun a' h => by cases h⟩
  | succ depth =>
    rw [structuredRound]
    split
    · exact ⟨_, rfl, fun a' h => by cases h⟩
    · next c rest hrest =>
      have hpos := pos_left hrest
      refine ⟨_, rfl, fun a' h => ?_⟩
      cases h
      unfold commentSize
      split
      · simp only [State.left_advance, State.left_advances]
        omega
      · split
        · simp only [State.left_advance]
          omega
        · split <;>
          · simp only [State.left_advance]
            omega

theorem commentRound_shrinks {spec : CommentDef} (hopener : cString spec.opener ≠ []) :
    Shrinks (commentRound (σ := σ) spec) := by
  rintro ⟨depth, s⟩
  cases depth with
  | zero => exact ⟨_, rfl, fun a' h => by cases h⟩
  | succ depth =>
    rw [commentRound]
    split
    · exact ⟨_, rfl, fun a' h => by cases h⟩
    · next c rest hrest =>
      have hpos := pos_left hrest
      have hlen := List.length_pos_iff.mpr hopener
      refine ⟨_, rfl, fun a' h => ?_⟩
      cases h
      unfold commentSize
      split
      · next hopen =>
        have := peekAt_length hopen.2
        simp only [State.left_advances]
        omega
      · split
        · simp only [State.left_advance]
          omega
        · split
          · simp only [State.left_advances]
            omega
          · simp only [State.left_advance]
            omega

theorem skipComment_ends {spec : CommentDef} (hopener : cString spec.opener ≠ []) (s : State σ) :
    ∃ b s', Settles (fun n => skipComment n spec s) (b, s') ∧ (b = true → s'.left < s.left) := by
  by_cases hpeek : peekAt spec.opener s = true
  · have hround : Shrinks (σ := σ) (if spec.structured then structuredRound else commentRound spec) := by
      split
      · exact structuredRound_shrinks
      · exact commentRound_shrinks hopener
    obtain ⟨s', hs', -⟩ := settles_loop
      (fun _ => if spec.structured then structuredRound else commentRound (σ := σ) spec)
      (P := fun _ => True) (Q := fun _ => True) commentSize (fun a _ => by
        obtain ⟨x, hx, hsmaller⟩ := hround a
        exact ⟨x, .of_forall fun _ => hx, fun a' h => ⟨hsmaller a' h, trivial⟩, fun _ _ => trivial⟩)
      (1, s.advances (cString spec.opener).length) trivial
    have hsettles : Settles (fun n => skipComment n spec s) (true, s') := by
      simp only [skipComment, hpeek, if_true]
      exact hs'.map _
    refine ⟨true, s', hsettles, fun _ => ?_⟩
    -- the walk starts behind the opener
    obtain ⟨n, hn⟩ := hs'.ends
    have hbehind : s'.left ≤ (s.advances (cString spec.opener).length).left := by
      refine loop_inv (P := fun a : Nat × State σ => a.2.left ≤ (s.advances (cString spec.opener).length).left)
        (Q := fun t => t.left ≤ (s.advances (cString spec.opener).length).left) ?_ ?_ n _ s' (le_refl _) hn
      · intro a a' ha hgo
        split at hgo
        · exact le_trans (structuredRound_slides hgo).left_le ha
        · exact le_trans (commentRound_slides hgo).left_le ha
      · intro a t ha hleave
        split at hleave
        · exact le_trans (structuredRound_slides hleave).left_le ha
        · exact le_trans (commentRound_slides hleave).left_le ha
    have hlen := List.length_pos_iff.mpr hopener
    have hfits := peekAt_length hpeek
    rw [State.left_advances] at hbehind
    omega
  · refine ⟨false, s, ?_, fun h => by cases h⟩
    simp only [skipComment, hpeek]
    exact Settles.const _

theorem skipComments_ends {specs : List CommentDef} (h : ∀ spec ∈ specs, cString spec.opener ≠ [])
    (s : State σ) :
    ∃ b s', Settles (fun n => skipComments n specs s) (b, s') ∧ (b = true → s'.left < s.left) := by
  induction specs generalizing s with
  | nil => exact ⟨false, s, Settles.const _, fun h => by cases h⟩
  | cons spec specs ih =>
    obtain ⟨b, s', hs', hless⟩ := skipComment_ends (h spec List.mem_cons_self) s
    cases b with
    | true => exact ⟨true, s', hs'.bind (Settles.const _), hless⟩
    | false =>
      obtain ⟨b, s'', hs'', hless'⟩ := ih (fun spec hm => h spec (List.mem_cons_of_mem _ hm)) s'
      have hle : s'.left ≤ s.left := by
        obtain ⟨n, hn⟩ := hs'.ends
        exact (skipComment_slides hn).left_le
      exact ⟨b, s'', hs'.bind hs'', fun hb => lt_of_lt_of_le (hless' hb) hle⟩

/-- **`skip()` comes to an end** when no comment form opens with the empty string. -/
theorem skip_ends {G : Grammar} (hopeners : ∀ spec ∈ G.comments, cString spec.opener ≠ [])
    (hignores : ∀ c, (G.ignores c).isSome) (s : State σ) :
    ∃ s', Settles (fun n => skip G n s) s' := by
  obtain ⟨s', hs', -⟩ := settles_loop (fun n => skipRound (σ := σ) G n) (P := fun _ => True)
    (Q := fun _ => True) State.left (fun a _ => by
      obtain ⟨s₁, hspan⟩ := spanWhile_ends hignores a
      obtain ⟨b, s₂, hs₂, hless⟩ := skipComments_ends hopeners s₁
      have hle₁ := (spanWhile_slides hspan).left_le
      have hle₂ : s₂.left ≤ s₁.left := by
        obtain ⟨n, hn⟩ := hs₂.ends
        exact (skipComments_slides hn).left_le
      refine ⟨if b ∨ s₁.left < a.left then .inl s₂ else .inr s₂, ?_, fun a' h => ?_, fun _ _ => trivial⟩
      · simp only [skipRound, hspan, Option.bind_some]
        exact hs₂.map _
      · split at h
        · next hgo =>
          cases h
          refine ⟨?_, trivial⟩
          rcases hgo with hb | hlt
          · exact lt_of_lt_of_le (hless hb) hle₁
          · exact lt_of_le_of_lt hle₂ hlt
        · cases h) s trivial
  exact ⟨s', hs'⟩

/-! ## The condition -/

/-- What an event must not be: a call of a rule that is running and was called at the same position,
a round after a body that took nothing. -/
def Event.Sound : Event → Prop
  | .call active r left => (r, left) ∉ active
  | .again before after => after < before

/-- So far the run was sound. -/
def State.Good (s : State σ) : Prop := ∀ e ∈ s.trace, e.Sound

/-- **The parser halts on `input`**, no chain of calls comes back to a rule at one position and no
repetition goes round on nothing. -/
def Terminates (G : Grammar) (H : Host σ) (input : List UInt8) (host : σ) : Prop :=
  ∃ value s', Settles (fun n => parse G H n (init input host)) (value, s') ∧ s'.Good

/-- `r` may come to call `r'`, the cursor having moved since `r` was entered or not. -/
def Calls (G : Grammar) (H : Host σ) (m : Bool) (r r' : Rule) : Prop :=
  ∃ body name args, G.body r = some body ∧ Runs G H (.seq body.lex body.code) m (.ruleCall name args) ∧
    G.callee name = .rule r'

/-- `r` may come to be called. -/
def Reached (G : Grammar) (H : Host σ) (r : Rule) : Prop :=
  ∃ start ps, G.productions = start :: ps ∧
    ReflTransGen (fun r r' => ∃ m, Calls G H m r r') (.production start.name) r

/-- `r` may come to evaluate `x`. -/
def Reaches (G : Grammar) (H : Host σ) (r : Rule) (lex : Bool) (x : PegExpr) : Prop :=
  ∃ body m, G.body r = some body ∧ body.lex = lex ∧ Runs G H (.seq lex body.code) m x

/-- The condition for termination, on the grammar and its user code. -/
structure Grounded (G : Grammar) (H : Host σ) : Prop where
  openers : ∀ spec ∈ G.comments, cString spec.opener ≠ []
  ignores : ∀ c, (G.ignores c).isSome
  charsetRefs : ∀ r, Reached G H r → ∀ lex name, Reaches G H r lex (.charsetRef name) → ∀ c, (G.is name c).isSome
  charsets : ∀ r, Reached G H r → ∀ lex name args name', Reaches G H r lex (.ruleCall name args) →
    G.callee name = .charset name' → ∀ c, (G.is name' c).isSome
  /-- No body of a repetition succeeds in place. -/
  bodies : ∀ r, Reached G H r → ∀ lex e, Reaches G H r lex (.star e) →
    ∀ f : Flow, f.value = true → ¬ May G H (.expr lex e) false f
  /-- No rule comes to call itself in place. -/
  acyclic : ∀ r, Reached G H r → ¬ TransGen (Calls G H false) r r

variable {G : Grammar} {H : Host σ}

/-! ## Expressions -/

/-- With enough fuel a call of `r` ends, and the run stays sound. -/
def CallHalts (G : Grammar) (H : Host σ) (active : List (Rule × Nat)) (r : Rule) (args : String)
    (s : State σ) : Prop :=
  ∃ value s', Settles (fun n => parseRule G H n active r args s) (value, s') ∧ s'.Good

/-- A body of a rule, entered with `entry` characters left, in which everything it calls ends. -/
structure Site (G : Grammar) (H : Host σ) (body : Body) (entry : Nat) (active : List (Rule × Nat)) : Prop where
  openers : ∀ spec ∈ G.comments, cString spec.opener ≠ []
  ignores : ∀ c, (G.ignores c).isSome
  charsetRefs : ∀ m name, Runs G H (.seq body.lex body.code) m (.charsetRef name) → ∀ c, (G.is name c).isSome
  charsets : ∀ m name args name', Runs G H (.seq body.lex body.code) m (.ruleCall name args) →
    G.callee name = .charset name' → ∀ c, (G.is name' c).isSome
  bodies : ∀ m e, Runs G H (.seq body.lex body.code) m (.star e) →
    ∀ f : Flow, f.value = true → ¬ May G H (.expr body.lex e) false f
  calls : ∀ name args r args' (s : State σ), s.left ≤ entry →
    Runs G H (.seq body.lex body.code) (decide (s.left < entry)) (.ruleCall name args) →
    G.callee name = .rule r → s.Good → CallHalts G H active r args' s

/-- The run is at `p` inside the body. -/
structure At (G : Grammar) (H : Host σ) (body : Body) (entry : Nat) (p : Phrase) (s : State σ) : Prop where
  left_le : s.left ≤ entry
  good : s.Good
  runs : ∀ m x, Runs G H p m x → Runs G H (.seq body.lex body.code) (decide (s.left < entry) || m) x

/-- From every state in which the run may be at `p`, the code ends and the run stays sound. -/
def Halts (G : Grammar) (H : Host σ) (body : Body) (entry : Nat) (p : Phrase) (code : Nat → Code σ) : Prop :=
  ∀ s, At G H body entry p s → ∃ f s', Settles (fun n => code n s) (f, s') ∧ s'.Good

section Expressions

variable {body : Body} {entry : Nat} {active : List (Rule × Nat)}

/-- The run went on from `p` to `q`. -/
theorem At.after {p q : Phrase} {s s' : State σ} (h : At G H body entry p s) (hle : s'.left ≤ s.left)
    (hgood : s'.Good) (hruns : ∀ m x, Runs G H q m x → Runs G H p (moved s s' || m) x) :
    At G H body entry q s' := by
  refine ⟨le_trans hle h.left_le, hgood, fun m x hx => ?_⟩
  have hsum : (decide (s'.left < entry) || m) = (decide (s.left < entry) || (moved s s' || m)) := by
    have hs := h.left_le
    rw [← Bool.or_assoc]
    congr 1
    unfold moved
    by_cases h₁ : s'.left < entry
    · by_cases h₂ : s.left < entry
      · simp only [h₁, h₂, decide_true, Bool.true_or]
      · have h₃ : s'.left < s.left := by omega
        simp only [h₁, h₃, decide_true, Bool.or_true]
    · have h₂ : ¬ s.left < entry := by omega
      have h₃ : ¬ s'.left < s.left := by omega
      simp only [h₁, h₂, h₃, decide_false, Bool.or_self]
  rw [hsum]
  exact h.runs _ x (hruns m x hx)

/-- The run is at the first part of `p`. -/
theorem At.enter {p q : Phrase} {s : State σ} (h : At G H body entry p s)
    (hruns : ∀ m x, Runs G H q m x → Runs G H p m x) : At G H body entry q s :=
  h.after (le_refl _) h.good fun m x hx => by
    rw [moved_self, Bool.false_or]
    exact hruns m x hx

theorem Slides.good {s s' : State σ} (h : Slides s s') (hs : s.Good) : s'.Good := by
  unfold State.Good
  rw [h.trace_eq]
  exact hs

/-- What code that halts and does what `May` says comes to. -/
theorem Halts.spec {p : Phrase} {code : Nat → Code σ} (h : Halts G H body entry p code)
    (hd : ∀ n, Does G H p (code n)) {s : State σ} (hs : At G H body entry p s) :
    ∃ f s', Settles (fun n => code n s) (f, s') ∧ s'.Good ∧ s'.left ≤ s.left ∧ May G H p (moved s s') f := by
  obtain ⟨f, s', hset, hgood⟩ := h s hs
  obtain ⟨n, hn⟩ := hset.ends
  obtain ⟨hle, hmay⟩ := hd n s f s' hn
  exact ⟨f, s', hset, hgood, hle, hmay⟩

theorem settles_lambda {code : Nat → Code σ} {s s' : State σ} {f : Flow}
    (h : Settles (fun n => code n s) (f, s')) : Settles (fun n => lambda (code n) s) (f.value, s') := h.map _

/-- A lambda that gives false is followed by code that depends on it, and so is one that gives true. -/
theorem settles_lambda_bind {β : Type} {code : Nat → Code σ} {s s' : State σ} {f : Flow} {b : Bool}
    {k : Nat → Bool × State σ → Option β} {y : β} (h : Settles (fun n => code n s) (f, s')) (hb : f.value = b)
    (hk : Settles (fun n => k n (b, s')) y) : Settles (fun n => (lambda (code n) s).bind (k n)) y := by
  subst hb
  exact (settles_lambda h).bind hk

theorem skipUnless_ends (hs : Site G H body entry active) {s : State σ} (lex : Bool) (hgood : s.Good) :
    ∃ s', Settles (fun n => skipUnless G n lex s) s' ∧ Slides s s' ∧ s'.Good ∧ (moved s s' = true → lex = false) := by
  have done : ∃ s', Settles (fun n => skipUnless G n lex s) s' := by
    cases lex with
    | true => exact ⟨s, Settles.const s⟩
    | false => exact skip_ends hs.openers hs.ignores s
  obtain ⟨s', hs'⟩ := done
  obtain ⟨n, hn⟩ := hs'.ends
  obtain ⟨hslides, hlex⟩ := skipUnless_slides hn
  exact ⟨s', hs', hslides, hslides.good hgood, hlex⟩

theorem halts_nil {lex : Bool} : Halts G H body entry (.seq lex []) fun _ => fallThrough :=
  fun s hs => ⟨.next, s, Settles.const _, hs.good⟩

theorem halts_cons {lex : Bool} {e : PegExpr} {es : List PegExpr} {first rest : Nat → Code σ}
    (he : Halts G H body entry (.expr lex e) first) (hd : ∀ n, Does G H (.expr lex e) (first n))
    (hes : Halts G H body entry (.seq lex es) rest) :
    Halts G H body entry (.seq lex (e :: es)) fun n => andThen (first n) (rest n) := by
  intro s hs
  obtain ⟨f, s₁, hset, hgood, hle, hmay⟩ := he.spec hd (hs.enter fun _ _ => .head)
  match f with
  | .ret value => exact ⟨.ret value, s₁, hset.bind (Settles.const _), hgood⟩
  | .next =>
    obtain ⟨g, s₂, hset', hgood'⟩ := hes s₁ (hs.after hle hgood fun _ _ => .tail hmay)
    exact ⟨g, s₂, hset.bind hset', hgood'⟩

theorem halts_tryOr {lex : Bool} {e e' : PegExpr} {es : List PegExpr} {first rest : Nat → Code σ}
    (he : Halts G H body entry (.expr lex e) first) (hd : ∀ n, Does G H (.expr lex e) (first n))
    (hes : Halts G H body entry (.alternatives lex (e' :: es)) rest) :
    Halts G H body entry (.alternatives lex (e :: e' :: es)) fun n => tryOr (first n) (rest n) := by
  intro s hs
  obtain ⟨f, s₁, hset, hgood, -, hmay⟩ := he.spec hd (hs.enter fun _ _ => .first)
  by_cases hf : f.value = true
  · exact ⟨.next, s₁, settles_lambda_bind hset hf (Settles.const _), hgood⟩
  · obtain rfl := Flow.eq_of_value (Bool.eq_false_of_not_eq_true hf)
    have hback : At G H body entry (.alternatives lex (e' :: es)) (s₁.restore s.pos) :=
      hs.after (le_refl _) hgood fun m x hx => by
        rw [moved_of_eq (State.left_restore s₁ s.pos), Bool.false_or]
        exact .later hmay hx
    obtain ⟨g, s₂, hset', hgood'⟩ := hes _ hback
    exact ⟨g, s₂, settles_lambda_bind hset rfl hset', hgood'⟩

theorem halts_dispatch {lex : Bool} {e e' : PegExpr} {es : List PegExpr} {test : State σ → Bool}
    {first rest : Nat → Code σ} (he : Halts G H body entry (.expr lex e) first)
    (hes : Halts G H body entry (.dispatch lex (e' :: es)) rest) :
    Halts G H body entry (.dispatch lex (e :: e' :: es)) fun n s =>
      if test s then first n s else rest n s := by
  intro s hs
  by_cases ht : test s = true
  · simp only [ht, if_true]
    exact he s (hs.enter fun _ _ => .here)
  · simp only [ht]
    exact hes s (hs.enter fun _ _ => .elsewhere)

theorem halts_predicted (hsite : Site G H body entry active) {lex : Bool} {es : List PegExpr}
    {code : Nat → Code σ} (hp : predictive lex es = true) (h : Halts G H body entry (.dispatch lex es) code) :
    Halts G H body entry (.expr lex (.choice es)) fun n s => (skipUnless G n lex s).bind (code n) := by
  intro s hs
  obtain ⟨s₁, hskip, hslides, hgood, hlex⟩ := skipUnless_ends hsite lex hs.good
  obtain ⟨f, s₂, hset, hgood'⟩ := h s₁ (hs.after hslides.left_le hgood fun _ _ => .predicted hp hlex)
  exact ⟨f, s₂, hskip.bind hset, hgood'⟩

theorem halts_consumeIf {p : Phrase} {test : UInt8 → Option Bool} (h : ∀ c, (test c).isSome) :
    Halts G H body entry p fun _ => consumeIf test := by
  intro s hs
  have done : ∃ f s', consumeIf test s = some (f, s') ∧ Slides s s' := by
    unfold consumeIf
    split
    · exact ⟨_, s, rfl, .refl s⟩
    · next c rest hrest =>
      obtain ⟨b, hb⟩ := Option.isSome_iff_exists.mp (h c)
      rw [hb]
      cases b with
      | true => exact ⟨_, s.advance, rfl, (Slides.refl s).advance⟩
      | false => exact ⟨_, s, rfl, .refl s⟩
  obtain ⟨f, s', hrun, hslides⟩ := done
  exact ⟨f, s', .of_forall fun _ => hrun, hslides.good hs.good⟩

theorem State.Good.record {s : State σ} {e : Event} (hs : s.Good) (he : e.Sound) : (s.record e).Good := by
  intro e' hmem
  rcases List.mem_cons.mp hmem with rfl | hmem
  · exact he
  · exact hs e' hmem

/-- The general loop of a repetition whose body does not succeed in place. -/
theorem settles_star {lex : Bool} {e : PegExpr} {code : Nat → Code σ}
    (he : Halts G H body entry (.expr lex e) code) (hd : ∀ n, Does G H (.expr lex e) (code n))
    (hbody : ∀ f : Flow, f.value = true → ¬ May G H (.expr lex e) false f) {s : State σ}
    (hs : At G H body entry (.expr lex (.star e)) s) :
    ∃ s', Settles (fun n => loop (starRound (code n)) n s) s' ∧ s'.Good := by
  refine settles_loop (fun n => starRound (code n)) (P := fun a => a.left ≤ s.left ∧ a.Good)
    (Q := fun b => b.Good) State.left ?_ s ⟨le_refl _, hs.good⟩
  rintro a ⟨hle, hgood⟩
  have hat : At G H body entry (.expr lex e) a := hs.after hle hgood fun m x hx => by
    -- the first round is at the place of the repetition, the others are behind it
    by_cases hm : moved s a = true
    · rw [hm, Bool.true_or]
      exact .again hx
    · rw [Bool.eq_false_of_not_eq_true hm, Bool.false_or]
      exact .star hx
  obtain ⟨f, a', hset, hgood', hle', hmay⟩ := he.spec hd hat
  by_cases hf : f.value = true
  · have hless : a'.left < a.left := by
      by_contra hnot
      rw [moved_of_eq (le_antisymm hle' (not_lt.mp hnot))] at hmay
      exact hbody f hf hmay
    have hl := settles_lambda hset
    rw [hf] at hl
    refine ⟨.inl (a'.record (.again a.left a'.left)), hl.map _, ?_, ?_⟩
    · intro b hb
      cases hb
      exact ⟨hless, le_trans hle' hle, hgood'.record hless⟩
    · intro b hb
      cases hb
  · have hl := settles_lambda hset
    rw [Bool.eq_false_of_not_eq_true hf] at hl
    refine ⟨.inr (a'.restore a.pos), hl.map _, ?_, ?_⟩
    · intro b hb
      cases hb
    · intro b hb
      cases hb
      exact hgood'

theorem halts_loop (hsite : Site G H body entry active) {e : PegExpr} {code : Nat → Code σ}
    (he : Halts G H body entry (.expr body.lex e) code) (hd : ∀ n, Does G H (.expr body.lex e) (code n)) :
    Halts G H body entry (.expr body.lex (.star e)) fun n => cgLoop G n e (code n) := by
  intro s hs
  obtain ⟨s', hset, hgood⟩ := settles_star he hd (hsite.bodies _ e (hs.runs false _ .self)) hs
  have hgeneral : Settles (fun n => (loop (starRound (code n)) n s).map fun s' => (Flow.next, s')) (.next, s') :=
    hset.map _
  unfold cgLoop
  split
  · next name =>
    by_cases hn : G.isCharsetName name = true
    · obtain ⟨s'', hspan⟩ := spanWhile_ends (hsite.charsetRefs _ name (hs.runs false _ (.star .self))) s
      refine ⟨.next, s'', .of_forall fun n => ?_, (spanWhile_slides hspan).good hs.good⟩
      simp only [hn, if_true, hspan, Option.map_some]
    · simp only [hn]
      exact ⟨.next, s', hgeneral, hgood⟩
  · exact ⟨.next, s', hgeneral, hgood⟩

theorem halts_plus {e : PegExpr} {code rest : Nat → Code σ}
    (he : Halts G H body entry (.expr body.lex e) code) (hd : ∀ n, Does G H (.expr body.lex e) (code n))
    (hrest : Halts G H body entry (.expr body.lex (.star e)) rest) :
    Halts G H body entry (.expr body.lex (.plus e)) fun n => andThen (code n) (rest n) := by
  intro s hs
  obtain ⟨f, s₁, hset, hgood, hle, hmay⟩ := he.spec hd (hs.enter fun _ _ => .plus)
  match f with
  | .ret value => exact ⟨.ret value, s₁, hset.bind (Settles.const _), hgood⟩
  | .next =>
    obtain ⟨g, s₂, hset', hgood'⟩ := hrest s₁ (hs.after hle hgood fun _ _ => .plusLoop hmay)
    exact ⟨g, s₂, hset.bind hset', hgood'⟩

theorem halts_optional {lex : Bool} {e : PegExpr} {code : Nat → Code σ}
    (he : Halts G H body entry (.expr lex e) code) :
    Halts G H body entry (.expr lex (.optional e)) fun n => cgOptional (code n) := by
  intro s hs
  obtain ⟨f, s', hset, hgood⟩ := he s (hs.enter fun _ _ => .optional)
  have hl := settles_lambda hset
  cases hf : f.value with
  | true =>
    rw [hf] at hl
    exact ⟨.next, s', hl.map _, hgood⟩
  | false =>
    rw [hf] at hl
    exact ⟨.next, s'.restore s.pos, hl.map _, hgood⟩

theorem halts_predicate {lex wanted : Bool} {e e' : PegExpr} {code : Nat → Code σ}
    (he : Halts G H body entry (.expr lex e) code)
    (hruns : ∀ m x, Runs G H (.expr lex e) m x → Runs G H (.expr lex e') m x) :
    Halts G H body entry (.expr lex e') fun n => cgPredicate wanted (code n) := by
  intro s hs
  obtain ⟨f, s', hset, hgood⟩ := he s (hs.enter hruns)
  refine ⟨.required (f.value == wanted), s'.restore s.pos, ?_, hgood⟩
  rw [← require_eq]
  exact (settles_lambda hset).map fun r => require (r.1 == wanted, r.2.restore s.pos)

theorem halts_literal (hsite : Site G H body entry active) {lex : Bool} {value : List UInt8} :
    Halts G H body entry (.expr lex (.literal value)) fun n => cgLiteral G n lex value := by
  intro s hs
  obtain ⟨s₁, hskip, -, hgood, -⟩ := skipUnless_ends hsite lex hs.good
  have hmatch : (matchStr value s₁).2.Good := by
    unfold matchStr
    split
    · exact ((Slides.refl s₁).advances _).good hgood
    · exact hgood
  refine ⟨.required (matchStr value s₁).1, (matchStr value s₁).2, ?_, hmatch⟩
  rw [← require_eq]
  exact hskip.map fun t => require (matchStr value t)

theorem Runs.ruleCall {lex m : Bool} {name args : String} {x : PegExpr}
    (h : Runs G H (.expr lex (.ruleCall name args)) m x) : x = .ruleCall name args := by
  cases h <;> rfl

theorem halts_ruleCall (hsite : Site G H body entry active) {name args : String} :
    Halts G H body entry (.expr body.lex (.ruleCall name args)) fun n =>
      cgRuleCall G H (parseRule G H n active) n body.lex name args := by
  intro s hs
  unfold cgRuleCall
  cases hcallee : G.callee name with
  | charset name' =>
    exact halts_consumeIf (p := .expr body.lex (.ruleCall name args))
      (hsite.charsets _ name args name' (hs.runs false _ .self) hcallee) s hs
  | rule r =>
    obtain ⟨s₁, hskip, hslides, hgood, hlex⟩ := skipUnless_ends hsite body.lex hs.good
    -- the call is made behind what is skipped
    have hat : At G H body entry (.expr body.lex (.ruleCall name args)) s₁ :=
      hs.after hslides.left_le hgood fun m x hx => by
        by_cases hm : moved s s₁ = true
        · obtain rfl := hx.ruleCall
          rw [hm, Bool.true_or, hlex hm]
          exact .skipped
        · rw [Bool.eq_false_of_not_eq_true hm, Bool.false_or]
          exact hx
    have hrun := hat.runs false _ .self
    rw [Bool.or_false] at hrun
    obtain ⟨value, s₂, hset, hgood'⟩ := hsite.calls name args r args s₁ hat.left_le hrun hcallee hgood
    refine ⟨.required value, s₂, ?_, hgood'⟩
    rw [← require_eq]
    exact hskip.bind (hset.map require)
  | helper name' =>
    obtain ⟨s₁, hskip, -, hgood, -⟩ := skipUnless_ends hsite body.lex hs.good
    refine ⟨.required (callHelper H name' args s₁).1, (callHelper H name' args s₁).2, ?_, ?_⟩
    · rw [← require_eq]
      exact hskip.map fun t => require (callHelper H name' args t)
    · exact ((Slides.refl s₁).advances _).good hgood

theorem halts_resolver {lex : Bool} {code : String} {e : PegExpr} {c : Nat → Code σ}
    (he : Halts G H body entry (.expr lex e) c) :
    Halts G H body entry (.expr lex (.resolver code e)) fun n => cgResolver H code (c n) := by
  intro s hs
  rcases hc : H.condition code s.pos s.furthest s.host with ⟨b, host⟩
  have hrun : ∀ n, cgResolver H code (c n) s =
      if b then c n { s with host := host } else some (.next, { s with host := host }) := fun n => by
    simp only [cgResolver, hc]
  simp only [hrun]
  have hplace : ({ s with host := host } : State σ).left = s.left := rfl
  cases b with
  | true =>
    refine he _ (hs.after (le_of_eq hplace) hs.good fun m x hx => ?_)
    rw [moved_of_eq hplace, Bool.false_or]
    exact .resolver hc hx
  | false => exact ⟨.next, _, .const _, hs.good⟩

mutual

theorem halts_expr (hsite : Site G H body entry active) :
    ∀ e : PegExpr, Halts G H body entry (.expr body.lex e) fun n =>
      cgExpr G H (parseRule G H n active) n body.lex e
  | .sequence es => fun s hs => halts_seq hsite es s (hs.enter fun _ _ => .sequence)
  | .choice es => by
    simp only [cgExpr]
    cases hp : predictive body.lex es with
    | true =>
      simp only [if_true]
      exact halts_predicted hsite hp (halts_dispatchAll hsite es)
    | false =>
      simp only [Bool.false_eq_true, if_false]
      exact fun s hs => halts_alternatives hsite es s (hs.enter fun _ _ => .choice hp)
  | .star e => halts_loop hsite (halts_expr hsite e) fun n => does_expr (may_of_parseRule n active) e
  | .plus e => halts_plus (halts_expr hsite e) (fun n => does_expr (may_of_parseRule n active) e)
      (halts_loop hsite (halts_expr hsite e) fun n => does_expr (may_of_parseRule n active) e)
  | .optional e => halts_optional (halts_expr hsite e)
  | .and e => halts_predicate (halts_expr hsite e) fun _ _ => .and
  | .not e => halts_predicate (halts_expr hsite e) fun _ _ => .not
  | .literal _ => halts_literal hsite
  | .ruleCall _ _ => halts_ruleCall hsite
  | .action _ => fun _ hs => ⟨_, _, .const _, hs.good⟩
  | .resolver _ e => halts_resolver (halts_expr hsite e)
  | .group e => fun s hs => halts_expr hsite e s (hs.enter fun _ _ => .group)
  | .anyExpr => halts_consumeIf fun _ => rfl
  | .charRange _ _ => halts_consumeIf fun _ => rfl
  | .charsetRef name => fun s hs => halts_consumeIf (hsite.charsetRefs _ name (hs.runs false _ .self)) s hs
  | .tokenRef _ => fun s hs => ⟨.next, s, .const _, hs.good⟩

theorem halts_seq (hsite : Site G H body entry active) :
    ∀ es : List PegExpr, Halts G H body entry (.seq body.lex es) fun n =>
      cgSeq G H (parseRule G H n active) n body.lex es
  | [] => halts_nil
  | e :: es => halts_cons (halts_expr hsite e) (fun n => does_expr (may_of_parseRule n active) e)
      (halts_seq hsite es)

theorem halts_alternatives (hsite : Site G H body entry active) :
    ∀ es : List PegExpr, Halts G H body entry (.alternatives body.lex es) fun n =>
      cgAlternatives G H (parseRule G H n active) n body.lex es
  | [] => fun s hs => ⟨.next, s, .const _, hs.good⟩
  | [e] => fun s hs => halts_expr hsite e s (hs.enter fun _ _ => .first)
  | e :: e' :: es => halts_tryOr (halts_expr hsite e) (fun n => does_expr (may_of_parseRule n active) e)
      (halts_alternatives hsite (e' :: es))

theorem halts_dispatchAll (hsite : Site G H body entry active) :
    ∀ es : List PegExpr, Halts G H body entry (.dispatch body.lex es) fun n =>
      cgDispatch G H (parseRule G H n active) n body.lex es
  | [] => fun s hs => ⟨.next, s, .const _, hs.good⟩
  | [e] => fun s hs => halts_expr hsite e s (hs.enter fun _ _ => .here)
  | e :: e' :: es => halts_dispatch (halts_expr hsite e) (halts_dispatchAll hsite (e' :: es))

end

end Expressions

/-! ## Rules -/

/-- Every rule of the grammar. -/
def Grammar.rules (G : Grammar) : List Rule :=
  G.productions.map (fun p => .production p.name) ++ G.tokens.map fun t => .token t.name

theorem mem_rules {r : Rule} : r ∈ G.rules ↔ ∃ body, G.body r = some body := by
  cases r with
  | production name =>
    simp only [Grammar.rules, Grammar.body, List.mem_append, List.mem_map, Rule.production.injEq, reduceCtorEq,
      and_false, exists_false, or_false, Option.map_eq_some_iff]
    constructor
    · rintro ⟨p, hp, rfl⟩
      obtain ⟨q, hq⟩ := Option.isSome_iff_exists.mp
        (List.find?_isSome.mpr ⟨p, hp, beq_self_eq_true p.name⟩ : (G.productions.find? fun q => q.name == p.name).isSome)
      exact ⟨_, q, hq, rfl⟩
    · rintro ⟨body, p, hp, -⟩
      exact ⟨p, List.mem_of_find?_eq_some hp, by simpa using List.find?_some hp⟩
  | token name =>
    simp only [Grammar.rules, Grammar.body, List.mem_append, List.mem_map, Rule.token.injEq, reduceCtorEq,
      and_false, exists_false, false_or, Option.map_eq_some_iff]
    constructor
    · rintro ⟨t, ht, rfl⟩
      obtain ⟨u, hu⟩ := Option.isSome_iff_exists.mp
        (List.find?_isSome.mpr ⟨t, ht, beq_self_eq_true t.name⟩ : (G.tokens.find? fun u => u.name == t.name).isSome)
      exact ⟨_, u, hu, rfl⟩
    · rintro ⟨body, t, ht, -⟩
      exact ⟨t, List.mem_of_find?_eq_some ht, by simpa using List.find?_some ht⟩

/-- A rule call only calls rules there are. -/
theorem mem_rules_of_callee {name : String} {r : Rule} (h : G.callee name = .rule r) : r ∈ G.rules := by
  unfold Grammar.callee at h
  split at h
  · cases h
  · split at h
    · next hp =>
      cases h
      obtain ⟨p, hp, he⟩ := List.any_eq_true.mp hp
      exact List.mem_append_left _ (List.mem_map.mpr ⟨p, hp, congrArg Rule.production (by simpa using he)⟩)
    · split at h
      · next ht =>
        cases h
        obtain ⟨t, ht, he⟩ := List.any_eq_true.mp ht
        exact List.mem_append_right _ (List.mem_map.mpr ⟨t, ht, congrArg Rule.token (by simpa using he)⟩)
      · cases h

theorem Reached.mem_rules {r : Rule} (h : Reached G H r) : r ∈ G.rules := by
  obtain ⟨start, ps, hstart, hpath⟩ := h
  rcases ReflTransGen.cases_tail hpath with rfl | ⟨q, -, m, body, name, args, -, -, hcallee⟩
  · unfold Grammar.rules
    rw [hstart]
    exact List.mem_cons_self
  · exact mem_rules_of_callee hcallee

theorem Reached.call {m : Bool} {r r' : Rule} (h : Reached G H r) (hcall : Calls G H m r r') : Reached G H r' := by
  obtain ⟨start, ps, hstart, hpath⟩ := h
  exact ⟨start, ps, hstart, hpath.tail ⟨m, hcall⟩⟩

/-- The rules that may be called. There are finitely many. -/
abbrev Live (G : Grammar) (H : Host σ) := { r : Rule // Reached G H r }

instance : Finite (Live G H) :=
  Finite.of_injective (fun r : Live G H => (⟨r.1, r.2.mem_rules⟩ : { r // r ∈ G.rules }))
    fun _ _ h => Subtype.ext (congrArg (fun x : { r // r ∈ G.rules } => x.1) h)

/-- Calls in place lead down a well-founded order. -/
theorem Grounded.wellFounded (hG : Grounded G H) :
    WellFounded fun a b : Live G H => TransGen (Calls G H false) b.1 a.1 := by
  have htrans : IsTrans (Live G H) fun a b => TransGen (Calls G H false) b.1 a.1 :=
    ⟨fun a b c hab hbc => hbc.trans hab⟩
  have hirrefl : Std.Irrefl fun a b : Live G H => TransGen (Calls G H false) b.1 a.1 :=
    ⟨fun a h => hG.acyclic a.1 a.2 h⟩
  exact Finite.wellFounded_of_trans_of_irrefl _

/-- The rules running when `r` is called: each was called at or before this position, and those called at
it come to call `r` in place. -/
def Chain (G : Grammar) (H : Host σ) (active : List (Rule × Nat)) (r : Rule) (left : Nat) : Prop :=
  ∀ q p, (q, p) ∈ active → left ≤ p ∧ (p = left → TransGen (Calls G H false) q r)

/-- A body is a site once the rules it calls end. -/
theorem Grounded.site (hG : Grounded G H) {r : Rule} (hr : Reached G H r) {body : Body}
    (hbody : G.body r = some body) {entry : Nat} {active : List (Rule × Nat)}
    (hcalls : ∀ m r', Calls G H m r r' → ∀ args (s : State σ), s.left ≤ entry → m = decide (s.left < entry) →
      s.Good → CallHalts G H active r' args s) : Site G H body entry active where
  openers := hG.openers
  ignores := hG.ignores
  charsetRefs := fun m name h => hG.charsetRefs r hr _ name ⟨body, m, hbody, rfl, h⟩
  charsets := fun m name args name' h => hG.charsets r hr _ name args name' ⟨body, m, hbody, rfl, h⟩
  bodies := fun m e h => hG.bodies r hr _ e ⟨body, m, hbody, rfl, h⟩
  calls := fun name args r' args' s hle hrun hcallee hgood =>
    hcalls _ r' ⟨body, name, args, hbody, hrun, hcallee⟩ args' s hle rfl hgood

/-- **Every call of a rule ends**, and the run stays sound. -/
theorem Grounded.callHalts (hG : Grounded G H) (left : Nat) (r : Live G H) (active : List (Rule × Nat))
    (args : String) (s : State σ) (hleft : s.left = left) (hchain : Chain G H active r.1 left) (hgood : s.Good) :
    CallHalts G H active r.1 args s := by
  induction left using Nat.strong_induction_on generalizing r active args s with
  | _ left behind =>
    induction r using hG.wellFounded.induction generalizing active args s with
    | _ r below =>
      obtain ⟨body, hbody⟩ := mem_rules.mp r.2.mem_rules
      -- a rule called from here is called further on, or is below this one
      have hsite : Site G H body left ((r.1, left) :: active) := by
        refine hG.site r.2 hbody fun m r' hcall args' s' hle hm hgood' => ?_
        have hr' : Reached G H r' := r.2.call hcall
        by_cases hlt : s'.left < left
        · refine behind s'.left hlt ⟨r', hr'⟩ _ args' s' rfl ?_ hgood'
          intro q p hmem
          have hp : left ≤ p := by
            rcases List.mem_cons.mp hmem with he | hmem
            · exact le_of_eq (Prod.mk.inj he).2.symm
            · exact (hchain q p hmem).1
          exact ⟨by omega, fun he => by omega⟩
        · obtain rfl : m = false := by rw [hm]; exact decide_eq_false hlt
          have hat : s'.left = left := by omega
          refine below ⟨r', hr'⟩ (.single hcall) _ args' s' hat ?_ hgood'
          intro q p hmem
          rcases List.mem_cons.mp hmem with he | hmem
          · obtain ⟨rfl, rfl⟩ := Prod.mk.inj he
            exact ⟨le_refl _, fun _ => .single hcall⟩
          · obtain ⟨hp, hpath⟩ := hchain q p hmem
            exact ⟨hp, fun he => (hpath he).tail hcall⟩
      have hnew : (Event.call active r.1 left).Sound := fun hmem =>
        hG.acyclic r.1 r.2 ((hchain r.1 left hmem).2 rfl)
      subst hleft
      set entered := { s with host := H.enter r.1 args s.pos s.furthest s.host }.record
        (.call active r.1 s.left) with hentered
      have hat : At G H body s.left (.seq body.lex body.code) entered :=
        ⟨le_refl _, State.Good.record hgood hnew, fun m x hx => by
          have hplace : ¬ entered.left < s.left := lt_irrefl s.left
          rwa [decide_eq_false hplace, Bool.false_or]⟩
      obtain ⟨f, s', hset, hgood'⟩ := halts_seq hsite body.code entered hat
      refine ⟨f.value, { s' with host := H.leave r.1 s.pos f.value s'.pos s'.furthest s'.host }, ?_, hgood'⟩
      refine Settles.of_succ ?_
      simp only [parseRule, hbody, Option.bind_some]
      exact (settles_lambda hset).map fun out =>
        (out.1, { out.2 with host := H.leave r.1 s.pos out.1 out.2.pos out.2.furthest out.2.host })

/-- **The parser of a grounded grammar terminates on every input**, whatever its user code keeps. -/
theorem terminates (hG : Grounded G H) (input : List UInt8) (host : σ) : Terminates G H input host := by
  obtain ⟨s, hskip⟩ := skip_ends hG.openers hG.ignores (init input host)
  have hgood : s.Good := by
    obtain ⟨n, hn⟩ := hskip.ends
    exact (skip_slides hn).good fun e he => absurd he List.not_mem_nil
  cases hps : G.productions with
  | nil =>
    refine ⟨true, s, ?_, hgood⟩
    simp only [parse, hps]
    exact hskip.bind (.const _)
  | cons start ps =>
    have hstart : Reached G H (.production start.name) := ⟨start, ps, hps, .refl⟩
    obtain ⟨value, s', hcall, hgood'⟩ := hG.callHalts s.left ⟨_, hstart⟩ [] (entryArgs start) s rfl
      (fun q p hmem => absurd hmem List.not_mem_nil) hgood
    refine ⟨value, s', ?_, hgood'⟩
    simp only [parse, hps]
    exact hskip.bind hcall

/-! ## A grammar that is grounded and one that is not -/

/-- User code that does nothing. -/
def idle : Host Unit where
  action := fun _ _ _ host => (.next, host)
  condition := fun _ _ _ host => (true, host)
  helper := fun _ _ _ _ host => (false, 0, host)
  enter := fun _ _ _ _ host => host
  leave := fun _ _ _ _ _ host => host

/-- `S = { A } .  A = "a" .` -/
def letters : Grammar where
  charsets := []
  tokens := []
  comments := []
  ignore := none
  productions :=
    [{ name := "S", params := [], locals_code := none, body := .star (.ruleCall "A" "") },
     { name := "A", params := [], locals_code := none, body := .literal ['a'.toUInt8] }]

theorem letters_body {r : Rule} {body : Body} (h : letters.body r = some body) :
    r = .production "S" ∧ body = ⟨false, [.star (.ruleCall "A" "")]⟩ ∨
      r = .production "A" ∧ body = ⟨false, [.literal ['a'.toUInt8]]⟩ := by
  cases r with
  | token name => cases h
  | production name =>
    by_cases hS : name = "S"
    · subst hS
      cases h
      exact .inl ⟨rfl, rfl⟩
    · by_cases hA : name = "A"
      · subst hA
        cases h
        exact .inr ⟨rfl, rfl⟩
      · have hS' : ¬ "S" = name := fun h => hS h.symm
        have hA' : ¬ "A" = name := fun h => hA h.symm
        simp [letters, Grammar.body, hS', hA'] at h

/-- All that a rule of `letters` evaluates. -/
theorem letters_runs {r : Rule} {body : Body} {m : Bool} {x : PegExpr} (h : letters.body r = some body)
    (hx : Runs letters idle (.seq body.lex body.code) m x) :
    r = .production "S" ∧ (x = .star (.ruleCall "A" "") ∨ x = .ruleCall "A" "") ∨
      r = .production "A" ∧ x = .literal ['a'.toUInt8] := by
  rcases letters_body h with ⟨rfl, rfl⟩ | ⟨rfl, rfl⟩
  · refine .inl ⟨rfl, ?_⟩
    cases hx with
    | head hx =>
      cases hx with
      | self => exact .inl rfl
      | star hx => exact .inr hx.ruleCall
      | again hx => exact .inr hx.ruleCall
    | tail _ hx => cases hx
  · refine .inr ⟨rfl, ?_⟩
    cases hx with
    | head hx => cases hx; rfl
    | tail _ hx => cases hx

theorem letters_calls {m : Bool} {r r' : Rule} (h : Calls letters idle m r r') :
    r = .production "S" ∧ r' = .production "A" := by
  obtain ⟨body, name, args, hbody, hruns, hcallee⟩ := h
  rcases letters_runs hbody hruns with ⟨rfl, hx | hx⟩ | ⟨rfl, hx⟩
  · cases hx
  · cases hx
    exact ⟨rfl, (Callee.rule.inj hcallee).symm⟩
  · cases hx

/-- Calling `A` succeeds only behind its letter. -/
theorem letters_moves {m : Bool} {f : Flow} (h : May letters idle (.expr false (.ruleCall "A" "")) m f)
    (hf : f.value = true) : m = true := by
  cases h with
  | callCharset => rfl
  | noCharset => cases hf
  | callHelper hcallee => cases hcallee
  | @callRule _ _ _ r m value k hcallee _ hmay =>
    obtain rfl : Rule.production "A" = r := Callee.rule.inj hcallee
    cases value with
    | false => cases hf
    | true =>
      have hm : m = true := by
        generalize hg : Flow.ret true = g at hmay
        cases hmay with
        | @rule _ body m f hbody hmay =>
          cases hbody
          cases hmay with
          | stop hmay => cases hmay; cases hg
          | cons hmay hnil =>
            cases hnil
            cases hmay with
            | literal hempty =>
              rw [Bool.or_false, ← Bool.not_eq_false]
              intro hplace
              exact absurd (hempty hplace) (by decide)
      rw [hm, Bool.or_true]

theorem letters_grounded : Grounded letters idle where
  openers := fun spec h => absurd h List.not_mem_nil
  ignores := fun _ => rfl
  charsetRefs := fun r _ lex name ⟨body, m, hbody, hlex, hruns⟩ => by
    subst hlex
    rcases letters_runs hbody hruns with ⟨-, hx | hx⟩ | ⟨-, hx⟩ <;> cases hx
  charsets := fun r _ lex name args name' ⟨body, m, hbody, hlex, hruns⟩ hcallee => by
    subst hlex
    rcases letters_runs hbody hruns with ⟨-, hx | hx⟩ | ⟨-, hx⟩ <;> cases hx
    cases hcallee
  bodies := fun r _ lex e ⟨body, m, hbody, hlex, hruns⟩ f hf hmay => by
    subst hlex
    have hlex : body.lex = false := by rcases letters_body hbody with ⟨-, rfl⟩ | ⟨-, rfl⟩ <;> rfl
    rcases letters_runs hbody hruns with ⟨-, hx | hx⟩ | ⟨-, hx⟩
    · cases hx
      rw [hlex] at hmay
      exact absurd (letters_moves hmay hf) (by decide)
    · cases hx
    · cases hx
  acyclic := fun r _ hcycle => by
    obtain ⟨q, hq, -⟩ := TransGen.head'_iff.mp hcycle
    obtain ⟨p, -, hp⟩ := TransGen.tail'_iff.mp hcycle
    have h := (letters_calls hq).1.symm.trans (letters_calls hp).2
    exact absurd h (by decide)

theorem terminates_letters : Terminates letters idle ['a'.toUInt8, 'a'.toUInt8, 'b'.toUInt8] () :=
  terminates letters_grounded _ _

/-- `S = [ "a" ] S .` -/
def optionalThenSelf : Grammar where
  charsets := []
  tokens := []
  comments := []
  ignore := none
  productions :=
    [{ name := "S", params := [], locals_code := none
       body := .sequence [.optional (.literal ['a'.toUInt8]), .ruleCall "S" ""] }]

/-- A call of `S` in it never ends. -/
theorem optionalThenSelf_endless (fuel : Nat) (active : List (Rule × Nat)) (args : String) (s : State Unit) :
    parseRule optionalThenSelf idle fuel active (.production "S") args s = none := by
  induction fuel generalizing active args s with
  | zero => rfl
  | succ fuel ih =>
    by_contra hne
    obtain ⟨⟨value, s'⟩, h⟩ := Option.ne_none_iff_exists'.mp hne
    obtain ⟨body, hbody, h⟩ := Option.bind_eq_some_iff.mp h
    cases hbody
    obtain ⟨⟨b, t⟩, hb, -⟩ := Option.map_eq_some_iff.mp h
    obtain ⟨⟨f, t⟩, hf, -⟩ := Option.map_eq_some_iff.mp hb
    -- the optional falls through, and `S` is called where it leaves the cursor
    obtain ⟨⟨f₁, t₁⟩, hseq, -⟩ := Option.bind_eq_some_iff.mp hf
    obtain ⟨⟨f₂, t₂⟩, hopt, hrest⟩ := Option.bind_eq_some_iff.mp hseq
    have hnext : f₂ = .next := by
      obtain ⟨⟨b, t⟩, -, he⟩ := Option.map_eq_some_iff.mp hopt
      cases b <;> exact (Prod.mk.inj he).1.symm
    subst hnext
    obtain ⟨⟨f₃, t₃⟩, hcall, -⟩ := Option.bind_eq_some_iff.mp hrest
    obtain ⟨t₄, -, hcall⟩ := Option.bind_eq_some_iff.mp hcall
    rw [ih] at hcall
    cases hcall

/-- The analysis has no error to report on it, and its parser does not come to an end on any input. -/
theorem accepted_without_end :
    optionalThenSelf.ok = true ∧ ∀ input, ¬ Terminates optionalThenSelf idle input () := by
  refine ⟨by decide +kernel, ?_⟩
  rintro input ⟨value, s', hset, -⟩
  obtain ⟨n, hn⟩ := hset.ends
  obtain ⟨s, -, h⟩ := Option.bind_eq_some_iff.mp hn
  change parseRule optionalThenSelf idle n [] (.production "S") _ s = _ at h
  rw [optionalThenSelf_endless] at h
  cases h

end Bbq.Peg
