import Bbq.Lib.Settle
import Bbq.Peg.Grammar

/-!
# The runtime of generated parsers

Model of `pegc/runtime/PegRuntime.h` (`PegCursor`), as far as emitted code uses it.

* A mark is the input that is left with the line and column there. `pos_` is the front of `rest`.
* `furthest_` is the furthest mark reached, `none` before the first `advance`.
* `host` is what user code keeps: the members of the generated class, its parameters and locals, the
  error list.
* `trace` is not in the source. It records the rule calls and the rounds of repetitions of a run, so
  that statements can be about them. Nothing reads it.
-/

namespace Bbq.Peg

open Bbq.Lib

/-- `Mark`. -/
structure Mark where
  rest : List UInt8
  line : Nat
  col : Nat
  deriving DecidableEq, Repr

/-- What a run did: it called a rule with `left` bytes remaining while the rules in `active` were
running, or it went round a repetition again whose body took it from `before` remaining bytes to
`after`. -/
inductive Event
  | call (active : List (Rule × Nat)) (rule : Rule) (left : Nat)
  | again (before after : Nat)
  deriving DecidableEq, Repr

/-- `PegCursor`, with the user's part of the parser. -/
structure State (σ : Type) where
  pos : Mark
  furthest : Option Mark
  host : σ
  trace : List Event

variable {σ : Type}

namespace State

/-- `remaining()`. -/
def left (s : State σ) : Nat := s.pos.rest.length

/-- `advance()`. -/
def advance (s : State σ) : State σ :=
  match s.pos.rest with
  | [] => s
  | c :: rest =>
    let pos : Mark := if c = '\n'.toUInt8 then ⟨rest, s.pos.line + 1, 1⟩ else ⟨rest, s.pos.line, s.pos.col + 1⟩
    { s with
      pos := pos
      furthest := if s.furthest.all fun m => rest.length < m.rest.length then some pos else s.furthest }

/-- `for (int i = 0; i < n; i++) advance();` -/
def advances : Nat → State σ → State σ
  | 0, s => s
  | n + 1, s => advances n s.advance

/-- `restore(m)`. -/
def restore (s : State σ) (m : Mark) : State σ := { s with pos := m }

/-- The run did `e`. -/
def record (s : State σ) (e : Event) : State σ := { s with trace := e :: s.trace }

@[simp] theorem rest_advance (s : State σ) : s.advance.pos.rest = s.pos.rest.tail := by
  unfold advance
  match h : s.pos.rest with
  | [] => simp [h]
  | c :: rest =>
    simp only [List.tail_cons]
    split <;> rfl

@[simp] theorem trace_advance (s : State σ) : s.advance.trace = s.trace := by
  unfold advance
  split <;> rfl

@[simp] theorem rest_advances (n : Nat) (s : State σ) : (s.advances n).pos.rest = s.pos.rest.drop n := by
  induction n generalizing s with
  | zero => rfl
  | succ n ih => rw [advances, ih, rest_advance, List.drop_tail]

@[simp] theorem trace_advances (n : Nat) (s : State σ) : (s.advances n).trace = s.trace := by
  induction n generalizing s with
  | zero => rfl
  | succ n ih => rw [advances, ih, trace_advance]

theorem advances_advances (n m : Nat) (s : State σ) : (s.advances n).advances m = s.advances (n + m) := by
  induction n generalizing s with
  | zero => rw [Nat.zero_add]; rfl
  | succ n ih => rw [Nat.succ_add]; exact ih s.advance

@[simp] theorem left_advances (n : Nat) (s : State σ) : (s.advances n).left = s.left - n := by
  simp [left]

@[simp] theorem left_advance (s : State σ) : s.advance.left = s.left - 1 := by
  simp [left]

@[simp] theorem left_restore (s : State σ) (m : Mark) : (s.restore m).left = m.rest.length := rfl

@[simp] theorem trace_restore (s : State σ) (m : Mark) : (s.restore m).trace = s.trace := rfl

@[simp] theorem left_record (s : State σ) (e : Event) : (s.record e).left = s.left := rfl

@[simp] theorem pos_record (s : State σ) (e : Event) : (s.record e).pos = s.pos := rfl

end State

/-! ## Matching -/

/-- The string a C string literal denotes to `strlen`: up to the first null byte. -/
def cString (value : List UInt8) : List UInt8 := value.takeWhile (· ≠ 0)

/-- `peek_at(str)`. -/
def peekAt (str : List UInt8) (s : State σ) : Bool := (cString str).isPrefixOf s.pos.rest

/-- `match(str)`. -/
def matchStr (str : List UInt8) (s : State σ) : Bool × State σ :=
  if peekAt str s then (true, s.advances (cString str).length) else (false, s)

theorem peekAt_length {str : List UInt8} {s : State σ} (h : peekAt str s = true) :
    (cString str).length ≤ s.left := by
  obtain ⟨rest, hrest⟩ := List.isPrefixOf_iff_prefix.mp h
  simp only [State.left, ← hrest, List.length_append]
  omega

/-! ## Skipping -/

/-- The string literal inside a structured comment, from behind its opening quote up to the closing
one. -/
def stringBody : List UInt8 → Nat
  | [] => 0
  | [c] => if c = '"'.toUInt8 then 0 else 1
  | c :: d :: rest =>
    if c = '"'.toUInt8 then 0
    else if c = '\\'.toUInt8 then stringBody rest + 2
    else stringBody (d :: rest) + 1

/-- One round of the loop of `skip_structured`, on the depth and the state. -/
def structuredRound : Nat × State σ → Option ((Nat × State σ) ⊕ State σ)
  | (0, s) => some (.inr s)
  | (depth + 1, s) =>
    match s.pos.rest with
    | [] => some (.inr s)
    | c :: rest =>
      some (.inl (
        if c = '"'.toUInt8 then (depth + 1, (s.advances (stringBody rest + 1)).advance)
        else if c = '('.toUInt8 then (depth + 2, s.advance)
        else if c = ')'.toUInt8 then (depth, s.advance)
        else (depth + 1, s.advance)))

/-- One round of the loop of `skip_comment`. -/
def commentRound (spec : CommentDef) : Nat × State σ → Option ((Nat × State σ) ⊕ State σ)
  | (0, s) => some (.inr s)
  | (depth + 1, s) =>
    match s.pos.rest with
    | [] => some (.inr s)
    | c :: _ =>
      some (.inl (
        if spec.nested ∧ peekAt spec.opener s then (depth + 2, s.advances (cString spec.opener).length)
        else if cString spec.closer = ['\n'.toUInt8] ∧ (c = '\n'.toUInt8 ∨ c = '\r'.toUInt8) then
          (depth, s.advance)
        else if peekAt spec.closer s then (depth, s.advances (cString spec.closer).length)
        else (depth + 1, s.advance)))

/-- `skip_comment(spec)`, which sends structured ones to `skip_structured`. -/
def skipComment (fuel : Nat) (spec : CommentDef) (s : State σ) : Option (Bool × State σ) :=
  if peekAt spec.opener s then
    (loop (if spec.structured then structuredRound else commentRound spec) fuel
      (1, s.advances (cString spec.opener).length)).map fun s => (true, s)
  else some (false, s)

/-- The `for` over the comment forms: the first one that skips. -/
def skipComments (fuel : Nat) : List CommentDef → State σ → Option (Bool × State σ)
  | [], s => some (false, s)
  | spec :: specs, s =>
    (skipComment fuel spec s).bind fun
      | (true, s') => some (true, s')
      | (false, s') => skipComments fuel specs s'

/-- How many characters from the front the predicate holds of. -/
def spanOf (holds : UInt8 → Option Bool) : List UInt8 → Option Nat
  | [] => some 0
  | c :: rest => (holds c).bind fun b => if b then (spanOf holds rest).map (· + 1) else some 0

/-- `while (pos_ < end_ && holds(*pos_)) advance();` -/
def spanWhile (holds : UInt8 → Option Bool) (s : State σ) : Option (State σ) :=
  (spanOf holds s.pos.rest).map fun n => s.advances n

/-- One round of `skip()`. -/
def skipRound (G : Grammar) (fuel : Nat) (s : State σ) : Option (State σ ⊕ State σ) :=
  (spanWhile G.ignores s).bind fun s₁ =>
    (skipComments fuel G.comments s₁).map fun
      | (found, s₂) => if found ∨ s₁.left < s.left then .inl s₂ else .inr s₂

/-- `skip()`. -/
def skip (G : Grammar) (fuel : Nat) (s : State σ) : Option (State σ) :=
  loop (skipRound G fuel) fuel s

/-! ## What skipping does -/

/-- Skipping only advances. -/
def Slides (s s' : State σ) : Prop := ∃ n, s' = s.advances n

namespace Slides

variable {s s' s'' : State σ}

theorem refl (s : State σ) : Slides s s := ⟨0, rfl⟩

theorem trans (h : Slides s s') (h' : Slides s' s'') : Slides s s'' := by
  obtain ⟨n, rfl⟩ := h
  obtain ⟨m, rfl⟩ := h'
  exact ⟨n + m, State.advances_advances n m s⟩

theorem advances (h : Slides s s') (n : Nat) : Slides s (s'.advances n) := h.trans ⟨n, rfl⟩

theorem advance (h : Slides s s') : Slides s s'.advance := h.advances 1

theorem left_le (h : Slides s s') : s'.left ≤ s.left := by
  obtain ⟨n, rfl⟩ := h
  rw [State.left_advances]
  exact Nat.sub_le _ _

theorem trace_eq (h : Slides s s') : s'.trace = s.trace := by
  obtain ⟨n, rfl⟩ := h
  exact State.trace_advances n s

end Slides

/-- The state a round of a walk over a comment leaves. -/
def walked : (Nat × State σ) ⊕ State σ → State σ
  | .inl (_, s) => s
  | .inr s => s

theorem structuredRound_slides {depth : Nat} {s : State σ} {x : (Nat × State σ) ⊕ State σ}
    (h : structuredRound (depth, s) = some x) : Slides s (walked x) := by
  cases depth with
  | zero => cases h; exact Slides.refl s
  | succ depth =>
    rw [structuredRound] at h
    split at h
    · cases h; exact Slides.refl s
    · cases h
      split
      · exact ((Slides.refl s).advances _).advance
      · split
        · exact (Slides.refl s).advance
        · split <;> exact (Slides.refl s).advance

theorem commentRound_slides {spec : CommentDef} {depth : Nat} {s : State σ}
    {x : (Nat × State σ) ⊕ State σ} (h : commentRound spec (depth, s) = some x) : Slides s (walked x) := by
  cases depth with
  | zero => cases h; exact Slides.refl s
  | succ depth =>
    rw [commentRound] at h
    split at h
    · cases h; exact Slides.refl s
    · cases h
      split
      · exact (Slides.refl s).advances _
      · split
        · exact (Slides.refl s).advance
        · split
          · exact (Slides.refl s).advances _
          · exact (Slides.refl s).advance

theorem skipComment_slides {fuel : Nat} {spec : CommentDef} {s s' : State σ} {b : Bool}
    (h : skipComment fuel spec s = some (b, s')) : Slides s s' := by
  unfold skipComment at h
  split at h
  · obtain ⟨t, ht, he⟩ := Option.map_eq_some_iff.mp h
    obtain rfl : t = s' := (Prod.mk.inj he).2
    refine loop_inv (P := fun a => Slides s a.2) (Q := fun t => Slides s t) ?_ ?_ fuel _ t
      ((Slides.refl s).advances _) ht
    · intro a a' ha hround
      split at hround
      · exact ha.trans (structuredRound_slides hround)
      · exact ha.trans (commentRound_slides hround)
    · intro a t ha hround
      split at hround
      · exact ha.trans (structuredRound_slides hround)
      · exact ha.trans (commentRound_slides hround)
  · cases h
    exact Slides.refl s

theorem skipComments_slides {fuel : Nat} {specs : List CommentDef} {s s' : State σ} {b : Bool}
    (h : skipComments fuel specs s = some (b, s')) : Slides s s' := by
  induction specs generalizing s with
  | nil =>
    obtain rfl : s = s' := (Prod.mk.inj (Option.some.inj h)).2
    exact Slides.refl s
  | cons spec specs ih =>
    rw [skipComments, Option.bind_eq_some_iff] at h
    obtain ⟨⟨found, t⟩, ht, h⟩ := h
    have hslides := skipComment_slides ht
    cases found with
    | true => cases h; exact hslides
    | false => exact hslides.trans (ih h)

theorem spanWhile_slides {holds : UInt8 → Option Bool} {s s' : State σ} (h : spanWhile holds s = some s') :
    Slides s s' := by
  obtain ⟨n, -, rfl⟩ := Option.map_eq_some_iff.mp h
  exact ⟨n, rfl⟩

theorem skipRound_slides {G : Grammar} {fuel : Nat} {s : State σ} {x : State σ ⊕ State σ}
    (h : skipRound G fuel s = some x) : Slides s (x.elim id id) := by
  rw [skipRound, Option.bind_eq_some_iff] at h
  obtain ⟨s₁, hspan, h⟩ := h
  obtain ⟨⟨found, s₂⟩, hcomments, rfl⟩ := Option.map_eq_some_iff.mp h
  have hslides := (spanWhile_slides hspan).trans (skipComments_slides hcomments)
  dsimp only
  split <;> exact hslides

/-- **Skipping only advances.** -/
theorem skip_slides {G : Grammar} {fuel : Nat} {s s' : State σ} (h : skip G fuel s = some s') :
    Slides s s' := by
  refine loop_inv (P := Slides s) (Q := Slides s) ?_ ?_ fuel s s' (Slides.refl s) h
  · intro a a' ha hround
    exact ha.trans (skipRound_slides hround)
  · intro a a' ha hround
    exact ha.trans (skipRound_slides hround)

end Bbq.Peg
