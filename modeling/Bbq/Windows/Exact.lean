import Bbq.Windows.Reader

/-!
# Window bounds in exact arithmetic

A bound of `@[start, end]` or `@[length]` is an expression's value, an `int64_t`. The readers cast it to `size_t`, add the
cursor to a length, and compare; the machine clamps it to 0 first (`PushIntervalApplyKont`). Both are compared with the
window in the integers: `Cursor.reach` and `Cursor.enter`.

* The cast is exact: an input is shorter than 2 ^ 63 bytes, so what wraps is past every window (`seekChecked_cast`,
  `pushIntervalChecked_cast`, `pushIntervalChecked_add`).
* The clamp is not: a negative length opens an empty window at a cursor inside the active one, a negative end does so at
  0 when the active window starts there. The readers refuse both.
-/

namespace Bbq

namespace Windows

open Cek (sizeAdd)

theorem sizeCast_of_nonneg {v : Int64} (h : 0 ≤ v.toInt) : sizeCast v = v.toInt.toNat := by
  have := v.toInt_lt
  unfold sizeCast
  omega

theorem sizeCast_of_neg {v : Int64} (h : v.toInt < 0) : sizeCast v = (v.toInt + 2 ^ 64).toNat ∧ 2 ^ 63 ≤ sizeCast v := by
  have := v.le_toInt
  unfold sizeCast
  omega

/-- `v < 0 ? 0 : v`. -/
def clamp (v : Int64) : Int64 := if v < 0 then 0 else v

theorem clamp_of_neg {v : Int64} (h : v.toInt < 0) : clamp v = 0 := if_pos (Int64.lt_iff_toInt_lt.2 h)

theorem clamp_of_nonneg {v : Int64} (h : 0 ≤ v.toInt) : clamp v = v :=
  if_neg fun hn => by
    rw [Int64.lt_iff_toInt_lt, Int64.toInt_zero] at hn
    omega

theorem sizeCast_clamp (v : Int64) : sizeCast (clamp v) = v.toInt.toNat := by
  by_cases h : v.toInt < 0
  · rw [clamp_of_neg h, Int.toNat_of_nonpos (Int.le_of_lt h)]
    rfl
  · rw [clamp_of_nonneg (Int.not_lt.1 h), sizeCast_of_nonneg (Int.not_lt.1 h)]

/-- The end an expression's value stands for: counted from the cursor if `relative`. -/
def stopOf (relative : Bool) (pos : Nat) (v : Int) : Int := if relative then pos + v else v

namespace Cursor

variable (c : Cursor) (input : List UInt8)

/-- A seek, in the integers. -/
def reach (target : Int) : Option Cursor :=
  if 0 ≤ target ∧ target ≤ input.length then some { c with pos := target.toNat } else none

/-- A window from the cursor to `stop`, in the integers: well formed, and within the one it is opened in. -/
def enter (stop : Int) : Option Cursor :=
  if c.pos ≤ stop ∧ (c.effectiveStart : Int) ≤ c.pos ∧ stop ≤ c.effectiveEnd input then
    some { c with intervals := (c.pos, stop.toNat) :: c.intervals }
  else none

variable {c input}

theorem enter_of_lt {stop : Int} (h : stop < c.pos) : c.enter input stop = none :=
  if_neg fun hn => by omega

theorem enter_past {stop : Int} (h : c.effectiveEnd input < stop) : c.enter input stop = none :=
  if_neg fun hn => by omega

/-- An opened window is one more. -/
theorem enter_ne_self {stop : Int} {c' : Cursor} (h : c.enter input stop = some c') : c' ≠ c := by
  unfold enter at h
  split at h
  · cases h
    exact fun he => absurd (congrArg (fun c => c.intervals.length) he) (Nat.succ_ne_self _)
  · cases h

theorem enter_eq_none {stop : Int} :
    c.enter input stop = none ↔ ¬(c.pos ≤ stop ∧ (c.effectiveStart : Int) ≤ c.pos ∧ stop ≤ c.effectiveEnd input) := by
  unfold enter
  split
  · rename_i h
    simp only [reduceCtorEq, h, and_self, not_true_eq_false]
  · rename_i h
    simp only [h, not_false_eq_true]

/-- A `size_t` end is compared as it is. -/
theorem pushIntervalChecked_eq (stop : Nat) : c.pushIntervalChecked input stop = c.enter input stop := by
  unfold pushIntervalChecked enter
  by_cases h : stop < c.pos ∨ c.pos < c.effectiveStart ∨ c.effectiveEnd input < stop
  · rw [if_pos h, if_neg (by omega)]
  · rw [if_neg h, if_pos (by omega), Int.toNat_natCast]

theorem seekChecked_cast (hsmall : input.length < 2 ^ 63) (v : Int64) :
    c.seekChecked input (sizeCast v) = c.reach input v.toInt := by
  unfold seekChecked reach
  by_cases hneg : v.toInt < 0
  · have := sizeCast_of_neg hneg
    rw [if_pos (by omega), if_neg (by omega)]
  · rw [sizeCast_of_nonneg (by omega)]
    by_cases h : input.length < v.toInt.toNat
    · rw [if_pos h, if_neg (by omega)]
    · rw [if_neg h, if_pos (by omega)]

section

variable (hsmall : c.effectiveEnd input < 2 ^ 63)
include hsmall

theorem pushIntervalChecked_cast (v : Int64) :
    c.pushIntervalChecked input (sizeCast v) = c.enter input v.toInt := by
  rw [pushIntervalChecked_eq]
  by_cases hneg : v.toInt < 0
  · have := sizeCast_of_neg hneg
    rw [enter_past (by omega), enter_of_lt (by omega)]
  · rw [sizeCast_of_nonneg (by omega), Int.toNat_of_nonneg (by omega)]

/-- A sum that wraps ends before the cursor, one that does not is the sum. -/
theorem pushIntervalChecked_add (hpos : c.pos < 2 ^ 64) (v : Int64) :
    c.pushIntervalChecked input (sizeAdd c.pos (sizeCast v)) = c.enter input (c.pos + v.toInt) := by
  have hlo := v.le_toInt
  have hhi := v.toInt_lt
  rw [pushIntervalChecked_eq]
  by_cases hneg : v.toInt < 0
  · rw [enter_of_lt (show c.pos + v.toInt < c.pos by omega)]
    by_cases hback : 0 ≤ c.pos + v.toInt
    · have hsum : (sizeAdd c.pos (sizeCast v) : Int) = c.pos + v.toInt := by
        unfold sizeAdd sizeCast
        omega
      rw [hsum, enter_of_lt (by omega)]
    · have hsum : (sizeAdd c.pos (sizeCast v) : Int) = c.pos + v.toInt + 2 ^ 64 := by
        unfold sizeAdd sizeCast
        omega
      rw [hsum, enter_past (by omega)]
  · by_cases hwrap : c.pos + v.toInt < 2 ^ 64
    · have hsum : (sizeAdd c.pos (sizeCast v) : Int) = c.pos + v.toInt := by
        unfold sizeAdd sizeCast
        omega
      rw [hsum]
    · have hsum : (sizeAdd c.pos (sizeCast v) : Int) = c.pos + v.toInt - 2 ^ 64 := by
        unfold sizeAdd sizeCast
        omega
      rw [hsum, enter_of_lt (by omega), enter_past (by omega)]

end

end Cursor

end Windows

/-! ## The machine -/

namespace Cek.Machine

open Windows (Cursor clamp sizeCast sizeCast_clamp stopOf)

variable (p : Program)

def cursor (m : Machine) : Cursor := ⟨m.pos, m.windows⟩

@[simp] theorem cursor_pos (m : Machine) : m.cursor.pos = m.pos := rfl

/-- `SeekApplyKont`, on the value of the start. -/
def seekApply (m : Machine) (target : Int64) (next : Kont) : Machine :=
  if target < 0 ∨ target.toInt.toNat > p.bytes.length then m.fail "interval start out of range"
  else { m with pos := target.toInt.toNat }.go next

/-- What a step to `next` answers, against `o`. -/
def Gives (m m' : Machine) (next : Kont) (o : Option Cursor) : Prop :=
  Windows.Answers (m'.control = .run next ∧ m'.frames = m.frames) (∃ message, m' = m.fail message) m.cursor m'.cursor o

@[simp] theorem fail_cursor (m : Machine) (message : String) : (m.fail message).cursor = m.cursor := by
  unfold fail
  split <;> rfl

theorem fail_gives (m : Machine) (next : Kont) (message : String) : m.Gives (m.fail message) next none :=
  ⟨⟨message, rfl⟩, m.fail_cursor message⟩

theorem seekApply_gives (m : Machine) (target : Int64) (next : Kont) :
    m.Gives (m.seekApply p target next) next (m.cursor.reach p.bytes target.toInt) := by
  unfold seekApply Cursor.reach
  have hneg : target < 0 ↔ target.toInt < 0 := Int64.lt_iff_toInt_lt
  by_cases h : target < 0 ∨ target.toInt.toNat > p.bytes.length
  · rw [if_pos h, if_neg (by rw [hneg] at h; omega)]
    exact m.fail_gives next _
  · rw [if_neg h, if_pos (by rw [hneg] at h; omega)]
    exact ⟨⟨rfl, rfl⟩, rfl⟩

section

variable {m : Machine} (hd : m.intervalDepth ≤ m.intervals.length)
include hd

theorem cursor_effectiveEnd : m.cursor.effectiveEnd p.bytes = m.effectiveEnd p := by
  rw [effectiveEnd_eq hd]
  unfold Cursor.effectiveEnd bounds
  cases h : m.windows <;> simp [cursor, h]

theorem cursor_effectiveStart : m.cursor.effectiveStart = m.effectiveStart := by
  rw [effectiveStart_eq hd 0]
  unfold Cursor.effectiveStart bounds
  cases h : m.windows <;> simp [cursor, h]

/-- A machine that compares as the readers do answers as they do. -/
theorem openWindow_gives (stop : Nat) (next : Kont) :
    m.Gives
      (if m.pos > stop ∨ m.pos < m.effectiveStart ∨ stop > m.effectiveEnd p then m.fail "interval out of range"
        else (m.openWindow m.pos stop).go next)
      next (m.cursor.pushIntervalChecked p.bytes stop) := by
  unfold Cursor.pushIntervalChecked
  rw [cursor_effectiveEnd p hd, cursor_effectiveStart hd, cursor_pos]
  by_cases h : stop < m.pos ∨ m.pos < m.effectiveStart ∨ m.effectiveEnd p < stop
  · rw [if_pos h, if_pos h]
    exact m.fail_gives next _
  · rw [if_neg h, if_neg h]
    obtain ⟨hwin, _⟩ := windows_push hd (m.pos, stop)
    exact ⟨⟨rfl, rfl⟩, congrArg (Cursor.mk m.pos) hwin⟩

/-- The machine opens the window of the clamped value. -/
theorem pushIntervalApply_gives (hsmall : m.effectiveEnd p < 2 ^ 63) (hpos : m.pos < 2 ^ 64) (relative : Bool) (v : Int64)
    (next : Kont) :
    m.Gives (m.pushIntervalApply p relative v next) next
      (m.cursor.enter p.bytes (stopOf relative m.pos (clamp v).toInt)) := by
  have hend : m.cursor.effectiveEnd p.bytes < 2 ^ 63 := (cursor_effectiveEnd p hd).trans_lt hsmall
  have ho : m.cursor.pushIntervalChecked p.bytes (if relative then sizeAdd m.pos v.toInt.toNat else v.toInt.toNat) =
      m.cursor.enter p.bytes (stopOf relative m.pos (clamp v).toInt) := by
    rw [← sizeCast_clamp]
    cases relative with
    | true => exact Cursor.pushIntervalChecked_add hend hpos (clamp v)
    | false => exact Cursor.pushIntervalChecked_cast hend (clamp v)
  rw [← ho]
  exact openWindow_gives p hd _ next

end

end Cek.Machine

/-! ## The three on the same values -/

namespace Windows

open Cek (Machine Kont sizeAdd)

variable {p : Cek.Program} {m : Machine} {r : Reader} {c : Ctx} {next : Kont}

/-- A machine, a C++ reader and a C context over one input, at one place in the same windows. -/
structure Alike (p : Cek.Program) (m : Machine) (r : Reader) (c : Ctx) : Prop where
  depth : m.intervalDepth ≤ m.intervals.length
  held : c.Held
  reader : r.cursor = m.cursor
  ctx : c.cursor = m.cursor
  readerData : r.data = p.bytes
  ctxData : c.data = p.bytes
  pos : m.pos < 2 ^ 64
  /-- The windows are windows of the input. -/
  inside : ∀ w ∈ m.windows, w.1 ≤ w.2 ∧ w.2 ≤ p.bytes.length

/-- All three seek to a start as in exact arithmetic. -/
structure SeekExact (p : Cek.Program) (m : Machine) (r : Reader) (c : Ctx) (next : Kont) (start : Int64) : Prop where
  machine : m.Gives (m.seekApply p start next) next (m.cursor.reach p.bytes start.toInt)
  reader : r.Gives (r.seekChecked (sizeCast start)) (m.cursor.reach p.bytes start.toInt)
  ctx : c.Gives (c.seekChecked (sizeCast start)) (m.cursor.reach p.bytes start.toInt)

/-- The `size_t` end the generated readers compute. -/
def castStop (relative : Bool) (pos : Nat) (v : Int64) : Nat := if relative then sizeAdd pos (sizeCast v) else sizeCast v

/-- All three open the window of a bound as in exact arithmetic. -/
structure PushExact (p : Cek.Program) (m : Machine) (r : Reader) (c : Ctx) (next : Kont) (relative : Bool) (v : Int64) :
    Prop where
  machine : m.Gives (m.pushIntervalApply p relative v next) next
    (m.cursor.enter p.bytes (stopOf relative m.pos v.toInt))
  reader : r.Gives (r.pushIntervalChecked (castStop relative r.pos v))
    (m.cursor.enter p.bytes (stopOf relative m.pos v.toInt))
  ctx : c.Gives (c.pushIntervalChecked (castStop relative c.pos v))
    (m.cursor.enter p.bytes (stopOf relative m.pos v.toInt))

/-- `@[start, stop]` and `@[length]`: the seek, the window from where it leads, and the window at the cursor. -/
structure BoundsExact (p : Cek.Program) (m : Machine) (r : Reader) (c : Ctx) (next : Kont) (start stop length : Int64) :
    Prop where
  seek : SeekExact p m r c next start
  between : ∀ sought, m.cursor.reach p.bytes start.toInt = some sought →
    PushExact p { m with pos := sought.pos } { r with pos := sought.pos } { c with pos := sought.pos } next false stop
  sized : PushExact p m r c next true length

section

variable (h : Alike p m r c)
include h

theorem Alike.effectiveEnd_le : m.cursor.effectiveEnd p.bytes ≤ p.bytes.length := by
  unfold Cursor.effectiveEnd
  split
  · exact le_refl _
  · rename_i start stop outer hw
    have hmem : (start, stop) ∈ m.windows := by
      rw [show m.windows = _ from hw]
      exact List.mem_cons_self
    exact (h.inside _ hmem).2

theorem Alike.small : m.cursor.effectiveEnd p.bytes < 2 ^ 63 := h.effectiveEnd_le.trans_lt p.small

theorem Alike.at_pos {pos : Nat} (hpos : pos < 2 ^ 64) :
    Alike p { m with pos } { r with pos } { c with pos } :=
  { depth := h.depth, held := h.held, readerData := h.readerData, ctxData := h.ctxData, pos := hpos
    inside := h.inside
    reader := congrArg (Cursor.mk pos) (congrArg Cursor.intervals h.reader)
    ctx := congrArg (Cursor.mk pos) (congrArg Cursor.intervals h.ctx) }

theorem Alike.reader_pos : r.pos = m.pos := congrArg Cursor.pos h.reader

theorem Alike.ctx_pos : c.pos = m.pos := congrArg Cursor.pos h.ctx

/-- Seeks are exact, whatever the value. -/
theorem Alike.seekExact (start : Int64) : SeekExact p m r c next start where
  machine := m.seekApply_gives p start next
  reader := by
    have := r.seekChecked_gives (sizeCast start)
    rw [h.readerData, Cursor.seekChecked_cast p.small, h.reader] at this
    exact this
  ctx := by
    have := Ctx.seekChecked_gives h.held (sizeCast start)
    rw [h.ctxData, Cursor.seekChecked_cast p.small, h.ctx] at this
    exact this

/-- The readers' end is compared as the exact one is. -/
theorem Alike.castStop_eq (relative : Bool) (v : Int64) :
    m.cursor.pushIntervalChecked p.bytes (castStop relative m.pos v) =
      m.cursor.enter p.bytes (stopOf relative m.pos v.toInt) := by
  cases relative with
  | true => exact Cursor.pushIntervalChecked_add h.small h.pos v
  | false => exact Cursor.pushIntervalChecked_cast h.small v

theorem Alike.reader_gives (relative : Bool) (v : Int64) :
    r.Gives (r.pushIntervalChecked (castStop relative r.pos v))
      (m.cursor.enter p.bytes (stopOf relative m.pos v.toInt)) := by
  have hgives := r.pushIntervalChecked_gives (castStop relative r.pos v)
  rw [h.readerData, h.reader, h.reader_pos, h.castStop_eq] at hgives
  rw [h.reader_pos]
  exact hgives

theorem Alike.ctx_gives (relative : Bool) (v : Int64) :
    c.Gives (c.pushIntervalChecked (castStop relative c.pos v))
      (m.cursor.enter p.bytes (stopOf relative m.pos v.toInt)) := by
  have hgives := Ctx.pushIntervalChecked_gives h.held (castStop relative c.pos v)
  rw [h.ctxData, h.ctx, h.ctx_pos, h.castStop_eq] at hgives
  rw [h.ctx_pos]
  exact hgives

/-- A push is exact unless a negative value is clamped to a window that can be opened. -/
theorem Alike.pushExact_iff (relative : Bool) (v : Int64) :
    PushExact p m r c next relative v ↔ (v.toInt < 0 → m.cursor.enter p.bytes (stopOf relative m.pos 0) = none) := by
  have hmachine := Machine.pushIntervalApply_gives p h.depth
    ((Machine.cursor_effectiveEnd p h.depth).symm.trans_lt h.small) h.pos relative v next
  have hnone : v.toInt < 0 → m.cursor.enter p.bytes (stopOf relative m.pos v.toInt) = none := by
    intro hneg
    apply Cursor.enter_of_lt
    unfold stopOf
    split <;> simp <;> omega
  constructor
  · intro hexact hneg
    have hrefused := hexact.machine
    rw [hnone hneg] at hrefused
    rw [clamp_of_neg hneg, Int64.toInt_zero] at hmachine
    cases hopen : m.cursor.enter p.bytes (stopOf relative m.pos 0) with
    | none => rfl
    | some opened =>
      rw [hopen] at hmachine
      exact absurd (hmachine.2.symm.trans hrefused.2) (Cursor.enter_ne_self hopen)
  · intro hclamp
    refine ⟨?_, h.reader_gives relative v, h.ctx_gives relative v⟩
    by_cases hneg : v.toInt < 0
    · rw [clamp_of_neg hneg, Int64.toInt_zero, hclamp hneg] at hmachine
      rw [hnone hneg]
      exact hmachine
    · rw [clamp_of_nonneg (by omega)] at hmachine
      exact hmachine

theorem Alike.sized_iff (length : Int64) :
    PushExact p m r c next true length ↔ (length < 0 → ¬(m.effectiveStart ≤ m.pos ∧ m.pos ≤ m.effectiveEnd p)) := by
  rw [h.pushExact_iff, Int64.lt_iff_toInt_lt, Int64.toInt_zero]
  refine imp_congr_right fun _ => ?_
  rw [Cursor.enter_eq_none, Machine.cursor_effectiveEnd p h.depth, Machine.cursor_effectiveStart h.depth, stopOf,
    if_pos rfl, Machine.cursor_pos]
  omega

/-- After a seek the end is absolute. -/
theorem Alike.between_iff (start stop : Int64) :
    (∀ sought, m.cursor.reach p.bytes start.toInt = some sought →
      PushExact p { m with pos := sought.pos } { r with pos := sought.pos } { c with pos := sought.pos } next false stop) ↔
      (stop < 0 → start = 0 → m.effectiveStart ≠ 0) := by
  have hat : ∀ pos, pos < 2 ^ 64 →
      (PushExact p { m with pos } { r with pos } { c with pos } next false stop ↔
        (stop < 0 → pos = 0 → m.effectiveStart ≠ 0)) := by
    intro pos hpos
    have hm := h.at_pos hpos
    rw [hm.pushExact_iff, Int64.lt_iff_toInt_lt, Int64.toInt_zero]
    refine imp_congr_right fun _ => ?_
    rw [Cursor.enter_eq_none, Machine.cursor_effectiveEnd p hm.depth, Machine.cursor_effectiveStart hm.depth, stopOf,
      if_neg Bool.false_ne_true, Machine.cursor_pos]
    have hstart : Machine.effectiveStart { m with pos } = m.effectiveStart := rfl
    rw [hstart]
    dsimp only
    omega
  have hsmall := p.small
  constructor
  · intro hall hneg hstart
    have hreach : m.cursor.reach p.bytes start.toInt = some { m.cursor with pos := 0 } := by
      rw [hstart]
      exact if_pos ⟨le_refl _, Int.natCast_nonneg _⟩
    exact (hat 0 (by decide)).1 (hall _ hreach) hneg rfl
  · intro hstop sought hreach
    unfold Cursor.reach at hreach
    split at hreach
    · rename_i hrange
      cases hreach
      have hpos : start.toInt.toNat < 2 ^ 64 := by omega
      refine (hat _ hpos).2 fun hneg hzero => hstop hneg (Int64.toInt_inj.1 ?_)
      rw [Int64.toInt_zero]
      omega
    · cases hreach

/-- **Window bounds are exact** unless a negative one is clamped: a length at a cursor inside the window, or an end with
a start of 0 where the window starts at 0 too. -/
theorem bounds_exact_iff (start stop length : Int64) :
    BoundsExact p m r c next start stop length ↔
      (stop < 0 → start = 0 → m.effectiveStart ≠ 0) ∧
        (length < 0 → ¬(m.effectiveStart ≤ m.pos ∧ m.pos ≤ m.effectiveEnd p)) := by
  constructor
  · intro hb
    exact ⟨(h.between_iff start stop).1 hb.between, (h.sized_iff length).1 hb.sized⟩
  · rintro ⟨hbetween, hsized⟩
    exact ⟨h.seekExact start, (h.between_iff start stop).2 hbetween, (h.sized_iff length).2 hsized⟩

end

/-- Four bytes under a grammar of no rules. -/
def fourBytes : Cek.Program :=
  { grammar := { defaultLittleEndian := true, rules := [] }
    bytes := [1, 2, 3, 4]
    small := by decide
    externs := none }

theorem fourBytes_alike : Alike fourBytes (fourBytes.start .halt) (.init fourBytes.bytes) (.init fourBytes.bytes) :=
  { depth := le_refl _, held := le_refl _, reader := rfl, ctx := rfl, readerData := rfl, ctxData := rfl
    pos := by decide
    inside := fun _ hw => nomatch hw }

/-- `@[1, 3]` and `@[2]` are exact on four bytes. -/
theorem bounds_exact_four :
    BoundsExact fourBytes (fourBytes.start .halt) (.init fourBytes.bytes) (.init fourBytes.bytes) .halt 1 3 2 :=
  (bounds_exact_iff fourBytes_alike 1 3 2).2 ⟨fun h => absurd h (by decide), fun h => absurd h (by decide)⟩

/-- `@[-1]` at the start of the input: an empty window in the machine, refused by the readers. -/
theorem negative_length_opens :
    ((fourBytes.start .halt).pushIntervalApply fourBytes true (-1) .halt).cursor = ⟨0, [(0, 0)]⟩ ∧
      (Reader.init fourBytes.bytes).pushIntervalChecked (castStop true 0 (-1)) =
        (false, { Reader.init fourBytes.bytes with error := some "interval out of range" }) ∧
      ((Ctx.init fourBytes.bytes).pushIntervalChecked (castStop true 0 (-1))).1 = false ∧
      ¬ BoundsExact fourBytes (fourBytes.start .halt) (.init fourBytes.bytes) (.init fourBytes.bytes) .halt 1 3 (-1) := by
  refine ⟨by decide, by decide, by decide, fun hexact => ?_⟩
  obtain ⟨_, hpos⟩ := hexact.sized.machine
  exact absurd hpos (by decide)

end Windows

end Bbq
