import Bbq.Cek.Step
import Bbq.Windows.Program

/-!
# Cursors and windows of the readers' runtimes

`bbq::reader` (`backends/cpp/runtime/bbq_reader.h`) under the generated C++ view reader, and `bbq_ctx_t`
(`backends/c/runtime/bbq_read.h`, `bbq_runtime.h`) under both generated C readers: what moves the cursor or opens and
closes a window. A `Cursor` is what either holds of the two; each operation on windows is the one of `Cursor`.

* The starts and the ends of the windows are pushed and popped together: one list of pairs.
* An offset or a byte count is a `size_t`: `sizeAdd` where it could wrap, and `sizeCast` for the cast of an
  expression's value.
* The stacks of windows grow: their allocations are taken to succeed. A copy of bytes is allocated by `Alloc`, which
  may refuse.
-/

namespace Bbq.Windows

open Cek (sizeAdd)

/-- `(size_t)` of an `int64_t`. -/
def sizeCast (v : Int64) : Nat := (v.toInt % 2 ^ 64).toNat

/-- `SIZE_MAX`. -/
def sizeMax : Nat := 2 ^ 64 - 1

/-! ## The C++ reader -/

/-- `bbq::reader`; the innermost window is last. -/
structure Reader where
  data : List UInt8
  pos : Nat
  intervals : List (Nat × Nat)
  error : Option String
  deriving DecidableEq, Repr

namespace Reader

variable (r : Reader)

def init (data : List UInt8) : Reader := { data, pos := 0, intervals := [], error := none }

def effectiveEnd : Nat := (r.intervals.getLast?.map Prod.snd).getD r.data.length

def effectiveStart : Nat := (r.intervals.getLast?.map Prod.fst).getD 0

def remaining : Nat := if r.pos < r.effectiveEnd then r.effectiveEnd - r.pos else 0

/-- The first error stays. -/
def fail (message : String) : Bool × Reader := (false, { r with error := r.error.or (some message) })

def advance (n : Nat) : Bool × Reader :=
  if sizeAdd r.pos n > r.effectiveEnd then r.fail "unexpected end of input"
  else (true, { r with pos := sizeAdd r.pos n })

def seekChecked (p : Nat) : Bool × Reader :=
  if p > r.data.length then r.fail "seek out of range" else (true, { r with pos := p })

def pushIntervalChecked (stop : Nat) : Bool × Reader :=
  if r.pos > stop ∨ r.pos < r.effectiveStart ∨ stop > r.effectiveEnd then r.fail "interval out of range"
  else (true, { r with intervals := r.intervals ++ [(r.pos, stop)] })

def popInterval : Reader := { r with intervals := r.intervals.dropLast }

/-- The window is left before its end is looked at. -/
def popIntervalChecked : Bool × Reader :=
  match r.intervals.getLast? with
  | none => r.fail "interval: unbalanced pop"
  | some (_, stop) =>
    if r.pos ≠ stop then r.popInterval.fail "interval: size mismatch" else (true, r.popInterval)

/-- `restore` of a checkpoint; `resize` takes windows away, or adds empty ones. -/
def restore (pos depth : Nat) : Reader :=
  { r with
    pos
    intervals := r.intervals.take depth ++ List.replicate (depth - r.intervals.length) (0, 0) }

/-- A registered parser's answer: the bytes it consumed, if it took any; the view reader's step over an external parser. -/
def external (answer : Option UInt64) (message : String) : Bool × Reader :=
  match answer with
  | none => r.fail message
  | some consumed =>
    if sizeAdd r.pos consumed.toNat > r.effectiveEnd then r.fail message
    else (true, { r with pos := sizeAdd r.pos consumed.toNat })

end Reader

/-! ## The context of the C readers -/

/-- `bbq_ctx_t`: slots from `intervalDepth` on are stale. -/
structure Ctx where
  data : List UInt8
  pos : Nat
  intervals : List (Nat × Nat)
  intervalDepth : Nat
  storeOom : Bool
  error : Option String
  deriving DecidableEq, Repr

/-- An allocator, and the platform it is on. -/
structure Alloc where
  /-- `sizeof(bbq_owned_hdr)`: two words, padded as `max_align_t` is. -/
  header : Nat
  /-- Whether `bbq_mem_resize` gives a block of so many bytes. -/
  grants : Nat → Bool

/-- `bbq_owned_resize` of no block. -/
def ownedResize (alloc : Alloc) (bytes : Nat) : Bool :=
  if bytes > sizeMax - alloc.header then false else alloc.grants (alloc.header + bytes)

namespace Ctx

variable (c : Ctx)

/-- `bbq_ctx_init`. -/
def init (data : List UInt8) : Ctx :=
  { data, pos := 0, intervals := [], intervalDepth := 0, storeOom := false, error := none }

/-- The innermost window. -/
def window : Option (Nat × Nat) :=
  match c.intervalDepth with
  | 0 => none
  | d + 1 => c.intervals[d]?

/-- `bbq_effective_end`. -/
def effectiveEnd : Nat := (c.window.map Prod.snd).getD c.data.length

/-- `bbq_effective_start`. -/
def effectiveStart : Nat := (c.window.map Prod.fst).getD 0

/-- `bbq_fail`: the first error stays, with where it was, in `BBQ_ERROR_LEN` characters. -/
def fail (message : String) : Bool × Ctx :=
  let text := "offset " ++ toString c.pos ++ ": " ++ message
  (false, { c with error := c.error.or (some (String.ofList (text.toList.take 255))) })

/-- `bbq_advance`. -/
def advance (n : Nat) : Bool × Ctx :=
  if sizeAdd c.pos n > c.effectiveEnd then c.fail "unexpected end of input"
  else (true, { c with pos := sizeAdd c.pos n })

/-- `bbq_seek_checked`. -/
def seekChecked (p : Nat) : Bool × Ctx :=
  if p > c.data.length then c.fail "seek out of range" else (true, { c with pos := p })

/-- `bbq_push_interval_checked`. -/
def pushIntervalChecked (stop : Nat) : Bool × Ctx :=
  if c.pos > stop ∨ c.pos < c.effectiveStart ∨ stop > c.effectiveEnd then c.fail "interval out of range"
  else
    (true, { c with
      intervals :=
        if c.intervalDepth = c.intervals.length then c.intervals ++ [(c.pos, stop)]
        else c.intervals.set c.intervalDepth (c.pos, stop)
      intervalDepth := c.intervalDepth + 1 })

/-- `bbq_pop_interval`. -/
def popInterval : Ctx := { c with intervalDepth := c.intervalDepth - 1 }

/-- `bbq_pop_interval_checked`. -/
def popIntervalChecked : Bool × Ctx :=
  match c.window with
  | none => c.fail "interval: unbalanced pop"
  | some (_, stop) =>
    if c.pos ≠ stop then c.popInterval.fail "interval: size mismatch" else (true, c.popInterval)

/-- `bbq_restore` of a checkpoint. -/
def restore (pos depth : Nat) : Ctx := { c with pos, intervalDepth := depth, error := none }

/-- `bbq_read_bytes`, and the copy. -/
def readBytes (alloc : Alloc) (len : Nat) : (Bool × Ctx) × Option (List UInt8) :=
  if sizeAdd c.pos len > c.effectiveEnd then (c.fail "bytes: overrun", none)
  else if !ownedResize alloc (if len ≠ 0 then len else 1) then
    ({ c with storeOom := true }.fail "bytes: out of memory", none)
  else ((true, { c with pos := sizeAdd c.pos len }), some ((c.data.drop c.pos).take len))

/-- `bbq_read_string`: with a NUL after the copy. -/
def readString (alloc : Alloc) (len : Nat) : (Bool × Ctx) × Option (List UInt8) :=
  if sizeAdd c.pos len > c.effectiveEnd then (c.fail "string: overrun", none)
  else if !(len < sizeMax && ownedResize alloc (len + 1)) then
    ({ c with storeOom := true }.fail "string: out of memory", none)
  else ((true, { c with pos := sizeAdd c.pos len }), some ((c.data.drop c.pos).take len))

/-- The lite reader's step over an external parser. -/
def external (answer : Option UInt64) (message : String) : Bool × Ctx :=
  match answer with
  | none => c.fail message
  | some consumed =>
    if sizeAdd c.pos consumed.toNat > c.effectiveEnd then c.fail message
    else (true, { c with pos := sizeAdd c.pos consumed.toNat })

end Ctx

/-! ## The cursor either holds -/

/-- A checked operation's answer and what it leaves the cursor at: where `o` goes, or where it was. -/
def Answers (taken refused : Prop) (before after : Cursor) : Option Cursor → Prop
  | some c => taken ∧ after = c
  | none => refused ∧ after = before

namespace Reader

def cursor (r : Reader) : Cursor := ⟨r.pos, r.intervals.reverse⟩

variable (r : Reader)

@[simp] theorem cursor_pos : r.cursor.pos = r.pos := rfl

/-- What a call answers, against `o`. -/
def Gives (called : Bool × Reader) (o : Option Cursor) : Prop :=
  Answers (called.1 = true) (called.1 = false) r.cursor called.2.cursor o ∧ called.2.data = r.data

theorem intervals_eq (r : Reader) :
    r.intervals = [] ∨ ∃ outer w, r.intervals = outer ++ [w] := by
  rcases List.eq_nil_or_concat r.intervals with h | ⟨outer, w, h⟩
  · exact Or.inl h
  · exact Or.inr ⟨outer, w, by rw [h, List.concat_eq_append]⟩

@[simp] theorem cursor_effectiveEnd : r.cursor.effectiveEnd r.data = r.effectiveEnd := by
  rcases r.intervals_eq with h | ⟨outer, w, h⟩ <;> simp [Cursor.effectiveEnd, effectiveEnd, cursor, h]

@[simp] theorem cursor_effectiveStart : r.cursor.effectiveStart = r.effectiveStart := by
  rcases r.intervals_eq with h | ⟨outer, w, h⟩ <;> simp [Cursor.effectiveStart, effectiveStart, cursor, h]

theorem fail_gives (message : String) : r.Gives (r.fail message) none := ⟨⟨rfl, rfl⟩, rfl⟩

theorem seekChecked_gives (p : Nat) : r.Gives (r.seekChecked p) (r.cursor.seekChecked r.data p) := by
  unfold seekChecked Cursor.seekChecked
  by_cases h : r.data.length < p
  · rw [if_pos h, if_pos h]
    exact r.fail_gives _
  · rw [if_neg h, if_neg h]
    exact ⟨⟨rfl, rfl⟩, rfl⟩

theorem pushIntervalChecked_gives (stop : Nat) :
    r.Gives (r.pushIntervalChecked stop) (r.cursor.pushIntervalChecked r.data stop) := by
  unfold pushIntervalChecked Cursor.pushIntervalChecked
  rw [cursor_effectiveEnd, cursor_effectiveStart, cursor_pos]
  by_cases h : stop < r.pos ∨ r.pos < r.effectiveStart ∨ r.effectiveEnd < stop
  · rw [if_pos h, if_pos h]
    exact r.fail_gives _
  · rw [if_neg h, if_neg h]
    exact ⟨⟨rfl, by simp [cursor]⟩, rfl⟩

end Reader

namespace Ctx

/-- The open windows, innermost first. -/
def windows (c : Ctx) : List (Nat × Nat) := (c.intervals.take c.intervalDepth).reverse

def cursor (c : Ctx) : Cursor := ⟨c.pos, c.windows⟩

@[simp] theorem cursor_pos (c : Ctx) : c.cursor.pos = c.pos := rfl

/-- The depth is one of the slots'. -/
def Held (c : Ctx) : Prop := c.intervalDepth ≤ c.intervals.length

variable (c : Ctx)

/-- What a call answers, against `o`. -/
def Gives (called : Bool × Ctx) (o : Option Cursor) : Prop :=
  Answers (called.1 = true) (called.1 = false) c.cursor called.2.cursor o ∧ called.2.data = c.data ∧ called.2.Held

variable {c} (hc : c.Held)
include hc

theorem windows_eq : c.intervalDepth = 0 ∧ c.windows = [] ∨
    ∃ d w, c.intervalDepth = d + 1 ∧ c.intervals[d]? = some w ∧ c.windows = w :: (c.intervals.take d).reverse := by
  cases h : c.intervalDepth with
  | zero => exact Or.inl ⟨rfl, by simp [windows, h]⟩
  | succ d =>
    have hd : d < c.intervals.length := by
      unfold Held at hc
      omega
    refine Or.inr ⟨d, c.intervals[d], rfl, List.getElem?_eq_getElem hd, ?_⟩
    rw [windows, h, List.take_succ_eq_append_getElem hd, List.reverse_append]
    rfl

theorem cursor_effectiveEnd : c.cursor.effectiveEnd c.data = c.effectiveEnd := by
  rcases windows_eq hc with ⟨h, hw⟩ | ⟨d, w, h, hw, hW⟩
  · simp [Cursor.effectiveEnd, effectiveEnd, window, cursor, h, hw]
  · simp [Cursor.effectiveEnd, effectiveEnd, window, cursor, h, hw, hW]

theorem cursor_effectiveStart : c.cursor.effectiveStart = c.effectiveStart := by
  rcases windows_eq hc with ⟨h, hw⟩ | ⟨d, w, h, hw, hW⟩
  · simp [Cursor.effectiveStart, effectiveStart, window, cursor, h, hw]
  · simp [Cursor.effectiveStart, effectiveStart, window, cursor, h, hw, hW]

theorem fail_gives (message : String) : c.Gives (c.fail message) none := ⟨⟨rfl, rfl⟩, rfl, hc⟩

theorem seekChecked_gives (p : Nat) : c.Gives (c.seekChecked p) (c.cursor.seekChecked c.data p) := by
  unfold seekChecked Cursor.seekChecked
  by_cases h : c.data.length < p
  · rw [if_pos h, if_pos h]
    exact fail_gives hc _
  · rw [if_neg h, if_neg h]
    exact ⟨⟨rfl, rfl⟩, rfl, hc⟩

theorem pushIntervalChecked_gives (stop : Nat) :
    c.Gives (c.pushIntervalChecked stop) (c.cursor.pushIntervalChecked c.data stop) := by
  unfold pushIntervalChecked Cursor.pushIntervalChecked
  rw [cursor_effectiveEnd hc, cursor_effectiveStart hc, cursor_pos]
  by_cases h : stop < c.pos ∨ c.pos < c.effectiveStart ∨ c.effectiveEnd < stop
  · rw [if_pos h, if_pos h]
    exact fail_gives hc _
  · rw [if_neg h, if_neg h]
    obtain ⟨hwin, hlen⟩ := Cek.windows_push hc (c.pos, stop)
    exact ⟨⟨rfl, congrArg (Cursor.mk c.pos) hwin⟩, rfl, hlen⟩

end Ctx

end Bbq.Windows
