import Bbq.Peg.Halt

/-!
# The runtime of generated C parsers

Model of the functions of `pegc/backend/frames/CParserImpl.frame` on `peg_state` (`pegc/runtime/peg_runtime.h`) that
move the cursor, and of the `setup_skip` that `CParserEmitter::emit_skip_setup` writes.

* `cursor` has `pos`, `line`, `col` and `furthest`, as `PegCursor` has them; `peg_advance` is its `advance`. Equal
  pointers are equal rests of the input.
* `marks` is what `peg_save` returned, and so what a parser may restore.
* `peg_scan_to`, and what is emitted for a character class, move the cursor by `peg_advance` only.
* Left out, as none of it moves the cursor: the errors and `user_data`.
* **`SkipsAgree`** compares each skip of a run with `skip` of `PegRuntime.h` from the same place.
-/

namespace Bbq.Peg

open Bbq.Lib

/-- `peg_comment_spec`. -/
structure PegCommentSpec where
  opener : List UInt8
  closer : List UInt8
  openLen : Nat
  closeLen : Nat
  nested : Bool
  structured : Bool

/-- `PEG_MAX_COMMENTS`. -/
def pegMaxComments : Nat := 4

/-- `peg_state`. -/
structure PegState where
  cursor : State Unit
  wsTab : UInt8 → Bool
  comments : List PegCommentSpec
  /-- `skip_from`, and `skip_to` with its line and column. -/
  memo : Option (List UInt8 × Mark)
  halted : Bool
  marks : List Mark

/-! ## Setup -/

/-- `peg_init`. -/
def pegInit (input : List UInt8) : PegState where
  cursor := { pos := ⟨input, 1, 1⟩, furthest := none, host := (), trace := [] }
  wsTab := fun _ => false
  comments := []
  memo := none
  halted := false
  marks := []

/-- `peg_set_whitespace`: the predicate is asked about every byte. -/
def pegSetWhitespace (p : PegState) (fn : UInt8 → Option Bool) : Option PegState :=
  if ∀ c : Fin 256, (fn (UInt8.ofFin c)).isSome then some { p with wsTab := fun c => (fn c).getD false } else none

/-- The entry `peg_add_comment` fills in. -/
def pegCommentSpec (spec : CommentDef) : PegCommentSpec where
  opener := spec.opener
  closer := spec.closer
  openLen := (cString spec.opener).length
  closeLen := (cString spec.closer).length
  nested := spec.nested
  structured := spec.structured

/-- `peg_add_comment`. -/
def pegAddComment (p : PegState) (spec : CommentDef) : PegState :=
  if p.comments.length < pegMaxComments then { p with comments := p.comments ++ [pegCommentSpec spec] } else p

/-- `setup_skip`. -/
def setupSkip (G : Grammar) (p : PegState) : Option PegState :=
  (if G.ignore.isSome then pegSetWhitespace p G.ignores else some p).map fun p => G.comments.foldl pegAddComment p

/-- `parser_init`. -/
def parserInit (G : Grammar) (input : List UInt8) : Option PegState := setupSkip G (pegInit input)

/-! ## Skipping -/

/-- `p->pos + len <= p->end && memcmp(p->pos, str, len) == 0`. -/
def pegPeekAtN (str : List UInt8) (len : Nat) (s : State Unit) : Bool := (str.take len).isPrefixOf s.pos.rest

/-- One round of the loop of `peg_skip_comment`. -/
def pegCommentRound (spec : PegCommentSpec) : Nat × State Unit → Option ((Nat × State Unit) ⊕ State Unit)
  | (0, s) => some (.inr s)
  | (depth + 1, s) =>
    match s.pos.rest with
    | [] => some (.inr s)
    | c :: _ =>
      some (.inl (
        if spec.nested ∧ pegPeekAtN spec.opener spec.openLen s then (depth + 2, s.advances spec.openLen)
        else if (spec.closeLen = 1 ∧ spec.closer.headD 0 = '\n'.toUInt8) ∧ (c = '\n'.toUInt8 ∨ c = '\r'.toUInt8) then
          (depth, s.advance)
        else if pegPeekAtN spec.closer spec.closeLen s then (depth, s.advances spec.closeLen)
        else (depth + 1, s.advance)))

/-- `peg_skip_comment`. The rounds of `peg_skip_structured` are those of `skip_structured`. -/
def pegSkipComment (fuel : Nat) (spec : PegCommentSpec) (s : State Unit) : Option (Bool × State Unit) :=
  if pegPeekAtN spec.opener spec.openLen s then
    (loop (if spec.structured then structuredRound else pegCommentRound spec) fuel
      (1, s.advances spec.openLen)).map fun s => (true, s)
  else some (false, s)

/-- The first byte rejects a form: `p->pos < p->end && *p->pos != open[0]`. -/
def pegRejects (spec : PegCommentSpec) (s : State Unit) : Bool :=
  match s.pos.rest with
  | [] => false
  | c :: _ => c ≠ spec.opener.headD 0

/-- The `for` over the comment forms. -/
def pegSkipComments (fuel : Nat) : List PegCommentSpec → State Unit → Option (Bool × State Unit)
  | [], s => some (false, s)
  | spec :: specs, s =>
    if pegRejects spec s then pegSkipComments fuel specs s
    else
      (pegSkipComment fuel spec s).bind fun
        | (true, s') => some (true, s')
        | (false, s') => pegSkipComments fuel specs s'

/-- One round of the loop of `peg_skip`. -/
def pegSkipRound (wsTab : UInt8 → Bool) (comments : List PegCommentSpec) (fuel : Nat) (s : State Unit) :
    Option (State Unit ⊕ State Unit) :=
  (spanWhile (fun c => some (wsTab c)) s).bind fun s₁ =>
    (pegSkipComments fuel comments s₁).map fun
      | (found, s₂) => if found ∨ s₁.left < s.left then .inl s₂ else .inr s₂

/-- The loop, for a position that the memo does not have. -/
def pegSkipMiss (fuel : Nat) (p : PegState) : Option PegState :=
  (loop (pegSkipRound p.wsTab p.comments fuel) fuel p.cursor).map fun s =>
    { p with cursor := s, memo := some (p.cursor.pos.rest, s.pos) }

/-- `peg_skip`. -/
def pegSkip (fuel : Nat) (p : PegState) : Option PegState :=
  match p.memo with
  | some (skipFrom, skipTo) =>
    if p.cursor.pos.rest = skipFrom then some { p with cursor := p.cursor.restore skipTo } else pegSkipMiss fuel p
  | none => pegSkipMiss fuel p

/-! ## Runs -/

/-- What else a parser does with the cursor. -/
inductive CursorOp
  | matchN (str : List UInt8)
  | matchCharset (fn : UInt8 → Bool)
  | spanChars (fn : UInt8 → Bool)
  | advance
  | save
  | restore (m : Mark)
  | halt

namespace PegState

/-- `peg_match_n`. -/
def matchN (p : PegState) (str : List UInt8) : Bool × PegState :=
  if p.halted then (false, p)
  else if pegPeekAtN str str.length p.cursor then (true, { p with cursor := p.cursor.advances str.length })
  else (false, p)

/-- `peg_match_charset`; `peg_match_char` asks for one byte. -/
def matchCharset (p : PegState) (fn : UInt8 → Bool) : Bool × PegState :=
  if p.halted then (false, p)
  else
    match p.cursor.pos.rest with
    | [] => (false, p)
    | c :: _ => if fn c then (true, { p with cursor := p.cursor.advance }) else (false, p)

/-- `peg_span_chars`. -/
def spanChars (p : PegState) (fn : UInt8 → Bool) : PegState :=
  { p with cursor := p.cursor.advances (p.cursor.pos.rest.takeWhile fn).length }

/-- The state behind an operation. A mark that was not saved is not restored. -/
def perform (p : PegState) : CursorOp → PegState
  | .matchN str => (p.matchN str).2
  | .matchCharset fn => (p.matchCharset fn).2
  | .spanChars fn => p.spanChars fn
  | .advance => { p with cursor := p.cursor.advance }
  | .save => { p with marks := p.cursor.pos :: p.marks }
  | .restore m => if m ∈ p.marks then { p with cursor := p.cursor.restore m } else p
  | .halt => { p with halted := true }

/-- A state that a parser comes to from `p₀`. -/
inductive Reached (p₀ : PegState) : PegState → Prop
  | start : Reached p₀ p₀
  | perform {p : PegState} (op : CursorOp) : Reached p₀ p → Reached p₀ (p.perform op)
  | skip {p p' : PegState} : Reached p₀ p → Settles (fun n => pegSkip n p) p' → Reached p₀ p'

end PegState

/-- **Memoised skipping is plain skipping**: whatever a parser did before, each skip comes to an end, at the position,
line and column where the loop of `PegRuntime.h` ends from there. -/
def SkipsAgree (G : Grammar) : Prop :=
  ∀ input p₀, parserInit G input = some p₀ → ∀ p, PegState.Reached p₀ p →
    ∃ p' s', Settles (fun n => pegSkip n p) p' ∧ Settles (fun n => skip G n p.cursor) s' ∧ p'.cursor.pos = s'.pos

/-- The forms before `spec` do its work: it opens with what is skipped anyway, or as one of the first four does. -/
def Covered (G : Grammar) (spec : CommentDef) : Prop :=
  G.ignores ((cString spec.opener).headD 0) = some true ∨
    ∃ first ∈ G.comments.take pegMaxComments, cString first.opener <+: cString spec.opener

end Bbq.Peg
