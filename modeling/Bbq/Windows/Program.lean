import Bbq.Lib.Tape
import Bbq.Writer.Context

/-!
# Windows in the generated C reader and writer

A field under `@[start, end]` is read at `start` and within the window; a field under `@[length]` is read
within the window of that length at the cursor. What the generated reader and the generated writer of a rule do
is one sequence of operations (`backends/render/templates/reader_c_stencil.inja` and `writer_c.inja`, over
`backends/c/runtime/bbq_read.h:160-410` and `bbq_runtime.h:519-551`): the reader's `Program.read` goes through it
on an input, the writer's `Program.write` on a value.

* An expression of the grammar (a bound, a length, a discriminant, a `where`) is evaluated on fields read
  before it, so what follows a field is a function of its bytes.
* What a reader decides by looking at the input, and a writer by looking at the value, is a `branch`: the arm of a
  choice, whether an optional is there, whether an `until` array goes on. The value keeps the decision.
* A field's value stands for the bytes it was read from. How many there are depends on the input only up to its own
  end (`Width`).
* A bound past `SIZE_MAX` is out of range in either model, since a window lies within the input.

Prefixes that are patched once a length is known (`@rest` sizes, counts of arrays) are the subject of
`Bbq.Writer.Holes`; here every field is written where it stands.
-/

namespace Bbq

namespace Writer

/-- `bbq_w_seek`. -/
def seek (w : Writer) (target : Nat) : Option Writer :=
  if w.data.length < target then
    if w.reserve (target - w.data.length) then
      some { w with data := w.data ++ List.replicate (target - w.data.length) 0 }
    else none
  else some { w with data := w.data.take target }

end Writer

namespace Windows

/-- The cursor of `bbq_ctx_t`: the position, and `interval_starts` and `interval_ends`, innermost first. -/
structure Cursor where
  pos : Nat
  intervals : List (Nat × Nat)
  deriving DecidableEq, Repr

namespace Cursor

variable (c : Cursor) (input : List UInt8)

/-- `bbq_effective_end`. -/
def effectiveEnd : Nat :=
  match c.intervals with
  | [] => input.length
  | (_, stop) :: _ => stop

/-- `bbq_effective_start`. -/
def effectiveStart : Nat :=
  match c.intervals with
  | [] => 0
  | (start, _) :: _ => start

/-- `bbq_seek_checked`. -/
def seekChecked (target : Nat) : Option Cursor := if input.length < target then none else some { c with pos := target }

/-- `bbq_push_interval_checked`. -/
def pushIntervalChecked (stop : Nat) : Option Cursor :=
  if stop < c.pos ∨ c.pos < c.effectiveStart ∨ c.effectiveEnd input < stop then none
  else some { c with intervals := (c.pos, stop) :: c.intervals }

/-- `bbq_pop_interval`. -/
def popInterval : Cursor := { c with intervals := c.intervals.tail }

/-- `bbq_pop_interval_checked`. -/
def popIntervalChecked : Option Cursor :=
  match c.intervals with
  | [] => none
  | (_, stop) :: rest => if c.pos ≠ stop then none else some { c with intervals := rest }

end Cursor

/-- How many bytes a field takes up. -/
structure Width where
  of : List UInt8 → Option Nat
  /-- What follows the field does not matter. -/
  stable : ∀ bs n rest, of bs = some n → n ≤ bs.length ∧ of (bs.take n ++ rest) = some n

/-- A fixed width. -/
def Width.fixed (n : Nat) : Width where
  of bs := if n ≤ bs.length then some n else none
  stable bs m rest h := by
    by_cases hn : n ≤ bs.length
    · rw [if_pos hn] at h
      cases h
      have hlen : n ≤ (bs.take n ++ rest).length := by
        rw [List.length_append, List.length_take]
        omega
      exact ⟨hn, if_pos hlen⟩
    · rw [if_neg hn] at h
      cases h

/-- What a value keeps of an operation. -/
inductive Stored
  | bytes (bs : List UInt8)
  | decision (n : Nat)
  deriving DecidableEq, Repr

abbrev Value := List Stored

/-- The operations of a rule, in the order the generated code goes through them. -/
inductive Program
  | done
  | fail
  | field (w : Width) (next : List UInt8 → Program)
  | branch (look : List UInt8 → Cursor → Option Nat) (next : Nat → Program)
  | seek (target : Nat) (next : Program)
  | pushInterval (relative : Bool) (n : Nat) (next : Program)
  | popInterval (checked : Bool) (next : Program)

/-- What happened in a read. -/
inductive Event
  | field (pos : Nat) (bs : List UInt8)
  /-- A decision, and what it would be on another input. -/
  | decided (look : List UInt8 → Option Nat) (n : Nat)
  | sought (target : Nat)
  | opened (start stop : Nat)
  /-- A window left, and its end; `none` where there was no window. -/
  | closed (pos : Nat) (stop : Option Nat)

namespace Program

/-- The generated reader: the value, what happened, and where the cursor is in the end. -/
def read (input : List UInt8) : Program → Cursor → Option (Value × List Event × Nat)
  | .done, c => some ([], [], c.pos)
  | .fail, _ => none
  | .field w next, c =>
    match w.of ((input.take (c.effectiveEnd input)).drop c.pos) with
    | none => none
    | some n =>
      let bs := (input.drop c.pos).take n
      (read input (next bs) { c with pos := c.pos + n }).map fun r => (.bytes bs :: r.1, .field c.pos bs :: r.2.1, r.2.2)
  | .branch look next, c =>
    match look input c with
    | none => none
    | some n =>
      (read input (next n) c).map fun r => (.decision n :: r.1, .decided (fun i => look i c) n :: r.2.1, r.2.2)
  | .seek target next, c =>
    match c.seekChecked input target with
    | none => none
    | some c => (read input next c).map fun r => (r.1, .sought target :: r.2.1, r.2.2)
  | .pushInterval relative n next, c =>
    match c.pushIntervalChecked input (if relative then c.pos + n else n) with
    | none => none
    | some c' =>
      (read input next c').map fun r =>
        (r.1, .opened c.pos (if relative then c.pos + n else n) :: r.2.1, r.2.2)
  | .popInterval checked next, c =>
    match if checked then c.popIntervalChecked else some c.popInterval with
    | none => none
    | some c' => (read input next c').map fun r => (r.1, .closed c.pos (c.intervals.head?.map Prod.snd) :: r.2.1, r.2.2)

end Program

/-- `bbq_write_ctx_t`, with its interval stack, innermost first. -/
structure Output where
  writer : Writer
  intervals : List (Nat × Nat)
  deriving DecidableEq, Repr

namespace Output

def init : Output := ⟨Writer.init none, []⟩

/-- `bbq_w_push_interval`. -/
def pushInterval (o : Output) (stop : Nat) : Output :=
  { o with intervals := (o.writer.data.length, stop) :: o.intervals }

/-- `bbq_w_pop_interval`. -/
def popInterval (o : Output) : Option Output :=
  match o.intervals with
  | [] => none
  | (_, stop) :: rest => (o.writer.seek stop).map fun w => ⟨w, rest⟩

end Output

/-- What a write leaves: the buffer, where each field went, and where the cursor was after each window. -/
structure Written where
  data : List UInt8
  places : List (Nat × List UInt8)
  marks : List Nat
  deriving DecidableEq, Repr

/-- The generated writer. -/
def Program.write : Program → Value → Output → Option Written
  | .done, [], o => some ⟨o.writer.data, [], []⟩
  | .field _ next, .bytes bs :: v, o =>
    match o.writer.write bs with
    | none => none
    | some w =>
      ((next bs).write v { o with writer := w }).map fun r => { r with places := (o.writer.data.length, bs) :: r.places }
  | .branch _ next, .decision n :: v, o => (next n).write v o
  | .seek target next, v, o =>
    match o.writer.seek target with
    | none => none
    | some w => next.write v { o with writer := w }
  | .pushInterval relative n next, v, o =>
    next.write v (o.pushInterval (if relative then o.writer.data.length + n else n))
  | .popInterval _ next, v, o =>
    match o.popInterval with
    | none => none
    | some o => (next.write v o).map fun r => { r with marks := o.writer.data.length :: r.marks }
  | _, _, _ => none

end Windows

end Bbq
