import Bbq.Windows.Exact

/-!
# Bounded advance

Every read of the generated readers tests `pos + n > effective_end` in `size_t`: `reader::advance` and `bbq_advance` for a
leaf of the view and lite readers, their step over an external parser, and `bbq_read_bytes` and `bbq_read_string` of the owning
one. The sum wraps, and a byte count is any `size_t` (`(size_t)` of a length that may be negative, or what a registered
parser reports).

* `Take`: the reads of a reader, at one cursor all the same (`Take.answer_eq`).
* `Cursor.Fits`: where the test is the exact one. A read is bounded exactly there, or where the owning reader's copy is
  refused (`Take.bounded_iff`).
* `Parse`: a reader under any sequence of reads, seeks, windows and checkpoints, with the spans it recorded.
-/

namespace Bbq.Windows

open Cek (sizeAdd)

namespace Cursor

variable (input : List UInt8) (c : Cursor) (n : Nat)

/-- `n` bytes taken at a cursor: none and the cursor stays, or all of them within the window. -/
def Bounded (ok : Bool) (after : Cursor) : Prop :=
  ok = false ∧ after = c ∨ ok = true ∧ after = { c with pos := c.pos + n } ∧ c.pos + n ≤ c.effectiveEnd input

/-- The sum does not wrap, or what it wraps to is past the window still. -/
def Fits : Prop := c.pos + n < 2 ^ 64 ∨ c.effectiveEnd input < c.pos + n - 2 ^ 64

/-- The runtimes' test and step. -/
def wrapped : Bool × Cursor :=
  if sizeAdd c.pos n > c.effectiveEnd input then (false, c) else (true, { c with pos := sizeAdd c.pos n })

variable {input c n}

/-- The test is the exact one where the sum fits. -/
theorem wrapped_bounded_iff (hpos : c.pos < 2 ^ 64) (hn : n < 2 ^ 64) :
    c.Bounded input n (c.wrapped input n).1 (c.wrapped input n).2 ↔ c.Fits input n := by
  have hsum : c.pos + n < 2 ^ 64 ∧ sizeAdd c.pos n = c.pos + n ∨
      2 ^ 64 ≤ c.pos + n ∧ sizeAdd c.pos n = c.pos + n - 2 ^ 64 := by
    unfold sizeAdd
    omega
  unfold wrapped Bounded Fits
  by_cases htest : sizeAdd c.pos n > c.effectiveEnd input
  · rw [if_pos htest]
    refine iff_of_true (Or.inl ⟨rfl, rfl⟩) ?_
    omega
  · rw [if_neg htest]
    constructor
    · rintro (⟨hok, _⟩ | ⟨_, hafter, _⟩)
      · cases hok
      · have := congrArg Cursor.pos hafter
        dsimp only at this
        omega
    · intro hfits
      have hexact : sizeAdd c.pos n = c.pos + n := by omega
      exact Or.inr ⟨rfl, by rw [hexact], by omega⟩

end Cursor

/-! ## The readers -/

/-- A generated reader. -/
inductive Kind
  | view
  | lite
  | owning (alloc : Alloc)

namespace Kind

/-- What it runs on. -/
abbrev State : Kind → Type
  | .view => Reader
  | .lite => Ctx
  | .owning _ => Ctx

def init (input : List UInt8) : (k : Kind) → k.State
  | .view => Reader.init input
  | .lite => Ctx.init input
  | .owning _ => Ctx.init input

def data : (k : Kind) → k.State → List UInt8
  | .view => Reader.data
  | .lite => Ctx.data
  | .owning _ => Ctx.data

def cursor : (k : Kind) → k.State → Cursor
  | .view => Reader.cursor
  | .lite => Ctx.cursor
  | .owning _ => Ctx.cursor

/-- Every slot, stale ones included. -/
def slots : (k : Kind) → k.State → List (Nat × Nat)
  | .view => Reader.intervals
  | .lite => Ctx.intervals
  | .owning _ => Ctx.intervals

def Held : (k : Kind) → k.State → Prop
  | .view => fun _ => True
  | .lite => Ctx.Held
  | .owning _ => Ctx.Held

/-- How many windows a checkpoint notes. -/
def depth : (k : Kind) → k.State → Nat
  | .view => fun r => r.intervals.length
  | .lite => Ctx.intervalDepth
  | .owning _ => Ctx.intervalDepth

def seek (target : Nat) : (k : Kind) → k.State → k.State
  | .view => fun r => (Reader.seekChecked r target).2
  | .lite => fun c => (Ctx.seekChecked c target).2
  | .owning _ => fun c => (Ctx.seekChecked c target).2

def push (stop : Nat) : (k : Kind) → k.State → k.State
  | .view => fun r => (Reader.pushIntervalChecked r stop).2
  | .lite => fun c => (Ctx.pushIntervalChecked c stop).2
  | .owning _ => fun c => (Ctx.pushIntervalChecked c stop).2

def pop (checked : Bool) : (k : Kind) → k.State → k.State
  | .view => fun r => if checked then (Reader.popIntervalChecked r).2 else Reader.popInterval r
  | .lite => fun c => if checked then (Ctx.popIntervalChecked c).2 else Ctx.popInterval c
  | .owning _ => fun c => if checked then (Ctx.popIntervalChecked c).2 else Ctx.popInterval c

def restore (pos depth : Nat) : (k : Kind) → k.State → k.State
  | .view => fun r => Reader.restore r pos depth
  | .lite => fun c => Ctx.restore c pos depth
  | .owning _ => fun c => Ctx.restore c pos depth

end Kind

/-- A read of bytes: a leaf of a fixed width or of a computed length, or an external parser's. -/
inductive Take : Kind → Type
  | bytes {k : Kind} (n : UInt64) : Take k
  | string {k : Kind} (n : UInt64) : Take k
  | viewExtern (answer : Option UInt64) (message : String) : Take .view
  | liteExtern (answer : Option UInt64) (message : String) : Take .lite

namespace Take

/-- The call a read makes. -/
def call : {k : Kind} → Take k → k.State → Bool × k.State
  | .view, .bytes n, r => Reader.advance r n.toNat
  | .view, .string n, r => Reader.advance r n.toNat
  | .view, .viewExtern answer message, r => Reader.external r answer message
  | .lite, .bytes n, c => Ctx.advance c n.toNat
  | .lite, .string n, c => Ctx.advance c n.toNat
  | .lite, .liteExtern answer message, c => Ctx.external c answer message
  | .owning alloc, .bytes n, c => (Ctx.readBytes c alloc n.toNat).1
  | .owning alloc, .string n, c => (Ctx.readString c alloc n.toNat).1

/-- How many bytes it takes; `none` where an external parser takes none. -/
def asks : {k : Kind} → Take k → Option UInt64
  | _, .bytes n => some n
  | _, .string n => some n
  | _, .viewExtern answer _ => answer
  | _, .liteExtern answer _ => answer

/-- Whether the owning reader has room for the copy. -/
def grants : {k : Kind} → Take k → Bool
  | .owning alloc, .bytes n => ownedResize alloc (if n.toNat ≠ 0 then n.toNat else 1)
  | .owning alloc, .string n => n.toNat < sizeMax && ownedResize alloc (n.toNat + 1)
  | .view, _ => true
  | .lite, _ => true

/-- What a read answers at a cursor. -/
def answer {k : Kind} (t : Take k) (input : List UInt8) (c : Cursor) : Bool × Cursor :=
  match t.asks with
  | none => (false, c)
  | some n => if t.grants then c.wrapped input n.toNat else (false, c)

end Take

/-- A call that answers `a` and moves nothing but the cursor. -/
structure Moves {σ : Type} (cursor : σ → Cursor) (data : σ → List UInt8) (slots : σ → List (Nat × Nat)) (held : σ → Prop)
    (s : σ) (called : Bool × σ) (a : Bool × Cursor) : Prop where
  ok : called.1 = a.1
  cursor : cursor called.2 = a.2
  data : data called.2 = data s
  slots : slots called.2 = slots s
  held : held called.2

abbrev Kind.Moves (k : Kind) : k.State → Bool × k.State → Bool × Cursor → Prop :=
  Windows.Moves k.cursor k.data k.slots k.Held

theorem Reader.advance_moves (r : Reader) (n : Nat) : Kind.view.Moves r (r.advance n) (r.cursor.wrapped r.data n) := by
  unfold advance Cursor.wrapped
  rw [cursor_effectiveEnd, cursor_pos]
  split
  · exact ⟨rfl, rfl, rfl, rfl, trivial⟩
  · exact ⟨rfl, rfl, rfl, rfl, trivial⟩

theorem Reader.extern_moves (r : Reader) (n : UInt64) (message : String) :
    Kind.view.Moves r (r.external (some n) message) (r.cursor.wrapped r.data n.toNat) := by
  unfold Reader.external Cursor.wrapped
  rw [cursor_effectiveEnd, cursor_pos]
  dsimp only
  split
  · exact ⟨rfl, rfl, rfl, rfl, trivial⟩
  · exact ⟨rfl, rfl, rfl, rfl, trivial⟩

namespace Ctx

variable {c : Ctx} (hc : c.Held)
include hc

theorem advance_moves (n : Nat) : Kind.lite.Moves c (c.advance n) (c.cursor.wrapped c.data n) := by
  unfold advance Cursor.wrapped
  rw [cursor_effectiveEnd hc, cursor_pos]
  split
  · exact ⟨rfl, rfl, rfl, rfl, hc⟩
  · exact ⟨rfl, rfl, rfl, rfl, hc⟩

theorem extern_moves (n : UInt64) (message : String) :
    Kind.lite.Moves c (c.external (some n) message) (c.cursor.wrapped c.data n.toNat) := by
  unfold Ctx.external Cursor.wrapped
  rw [cursor_effectiveEnd hc, cursor_pos]
  dsimp only
  split
  · exact ⟨rfl, rfl, rfl, rfl, hc⟩
  · exact ⟨rfl, rfl, rfl, rfl, hc⟩

/-- The copy is asked for after the test. -/
theorem readBytes_moves (alloc : Alloc) (n : UInt64) :
    (Kind.owning alloc).Moves c (c.readBytes alloc n.toNat).1 ((Take.bytes n : Take (.owning alloc)).answer c.data c.cursor) := by
  unfold readBytes Take.answer Take.asks Take.grants Cursor.wrapped
  dsimp only
  rw [cursor_effectiveEnd hc, cursor_pos]
  by_cases htest : sizeAdd c.pos n.toNat > c.effectiveEnd
  · rw [if_pos htest, if_pos htest, ite_self]
    exact ⟨rfl, rfl, rfl, rfl, hc⟩
  · rw [if_neg htest, if_neg htest]
    by_cases hgrant : ownedResize alloc (if n.toNat ≠ 0 then n.toNat else 1) = true
    · rw [if_neg (by rw [hgrant]; decide), if_pos hgrant]
      exact ⟨rfl, rfl, rfl, rfl, hc⟩
    · rw [if_pos (by rw [Bool.eq_false_iff.2 hgrant]; rfl), if_neg hgrant]
      exact ⟨rfl, rfl, rfl, rfl, hc⟩

theorem readString_moves (alloc : Alloc) (n : UInt64) :
    (Kind.owning alloc).Moves c (c.readString alloc n.toNat).1
      ((Take.string n : Take (.owning alloc)).answer c.data c.cursor) := by
  unfold readString Take.answer Take.asks Take.grants Cursor.wrapped
  dsimp only
  rw [cursor_effectiveEnd hc, cursor_pos]
  by_cases htest : sizeAdd c.pos n.toNat > c.effectiveEnd
  · rw [if_pos htest, if_pos htest, ite_self]
    exact ⟨rfl, rfl, rfl, rfl, hc⟩
  · rw [if_neg htest, if_neg htest]
    by_cases hgrant : (decide (n.toNat < sizeMax) && ownedResize alloc (n.toNat + 1)) = true
    · rw [if_neg (by rw [hgrant]; decide), if_pos hgrant]
      exact ⟨rfl, rfl, rfl, rfl, hc⟩
    · rw [if_pos (by rw [Bool.eq_false_iff.2 hgrant]; rfl), if_neg hgrant]
      exact ⟨rfl, rfl, rfl, rfl, hc⟩

end Ctx

/-- Whatever the reader, a read answers what `Take.answer` does. -/
theorem Take.call_moves {k : Kind} (t : Take k) {s : k.State} (hs : k.Held s) :
    k.Moves s (t.call s) (t.answer (k.data s) (k.cursor s)) := by
  cases k with
  | view =>
    cases t with
    | bytes n => exact Reader.advance_moves s n.toNat
    | string n => exact Reader.advance_moves s n.toNat
    | viewExtern answer message =>
      cases answer with
      | none => exact ⟨rfl, rfl, rfl, rfl, trivial⟩
      | some n => exact Reader.extern_moves s n message
  | lite =>
    cases t with
    | bytes n => exact Ctx.advance_moves hs n.toNat
    | string n => exact Ctx.advance_moves hs n.toNat
    | liteExtern answer message =>
      cases answer with
      | none => exact ⟨rfl, rfl, rfl, rfl, hs⟩
      | some n => exact Ctx.extern_moves hs n message
  | owning alloc =>
    cases t with
    | bytes n => exact Ctx.readBytes_moves hs alloc n
    | string n => exact Ctx.readString_moves hs alloc n

namespace Take

variable {k : Kind} (t : Take k) (s : k.State)

/-- A read takes what it asks for within the window, or nothing. -/
def Bounded : Prop :=
  match t.asks with
  | none => (t.call s).1 = false ∧ k.cursor (t.call s).2 = k.cursor s
  | some n => (k.cursor s).Bounded (k.data s) n.toNat (t.call s).1 (k.cursor (t.call s).2)

/-- The sum fits, where it is not the copy that is refused. -/
def Fits : Prop := ∀ n, t.asks = some n → t.grants = true → (k.cursor s).Fits (k.data s) n.toNat

variable {s}

/-- **A read is bounded exactly where the sum fits.** -/
theorem bounded_iff (hs : k.Held s) (hpos : (k.cursor s).pos < 2 ^ 64) : t.Bounded s ↔ t.Fits s := by
  obtain ⟨hok, hcursor, -, -, -⟩ := t.call_moves hs
  unfold Bounded Fits
  rw [hok, hcursor, answer]
  cases t.asks with
  | none => exact iff_of_true ⟨rfl, rfl⟩ fun _ hn => nomatch hn
  | some n =>
    dsimp only
    by_cases hgrants : t.grants = true
    · rw [if_pos hgrants]
      refine (Cursor.wrapped_bounded_iff hpos n.toNat_lt).trans ⟨fun hfits _ hn _ => ?_, fun h => h n rfl hgrants⟩
      cases hn
      exact hfits
    · rw [if_neg hgrants]
      exact iff_of_true (Or.inl ⟨rfl, rfl⟩) fun _ _ h => absurd h hgrants

end Take

/-! ## A run of reads -/

/-- What the code of a reader does to its cursor and windows. -/
inductive Op (k : Kind)
  | take (t : Take k)
  | seek (target : Int64)
  | push (relative : Bool) (v : Int64)
  | pop (checked : Bool)
  | save
  | restore

structure Span where
  start : Nat
  stop : Nat
  /-- The end of the window it was read in. -/
  limit : Nat
  deriving DecidableEq, Repr

/-- A span of its window, a window of the input. -/
def Span.Within (input : List UInt8) (s : Span) : Prop := s.start ≤ s.stop ∧ s.stop ≤ s.limit ∧ s.limit ≤ input.length

/-- A reader, its open checkpoints and the spans it recorded. -/
structure Parse (k : Kind) where
  state : k.State
  saved : List (Nat × Nat)
  spans : List Span

namespace Parse

variable {k : Kind}

def init (k : Kind) (input : List UInt8) : Parse k := { state := k.init input, saved := [], spans := [] }

/-- One operation. After one that fails the reader goes on from a checkpoint, if it does. -/
def step (x : Parse k) : Op k → Parse k
  | .take t =>
    let called := t.call x.state
    let c := k.cursor x.state
    { x with
      state := called.2
      spans :=
        if called.1 then x.spans ++ [⟨c.pos, (k.cursor called.2).pos, c.effectiveEnd (k.data x.state)⟩] else x.spans }
  | .seek target => { x with state := k.seek (sizeCast target) x.state }
  | .push relative v => { x with state := k.push (castStop relative (k.cursor x.state).pos v) x.state }
  | .pop checked => { x with state := k.pop checked x.state }
  | .save => { x with saved := ((k.cursor x.state).pos, k.depth x.state) :: x.saved }
  | .restore =>
    match x.saved with
    | [] => x
    | (pos, depth) :: rest => { x with state := k.restore pos depth x.state, saved := rest }

def run (x : Parse k) (ops : List (Op k)) : Parse k := ops.foldl step x

/-- What a run leaves of an input: the slots are windows of it, the cursor a `size_t`, the checkpoints stand. -/
structure Ok (input : List UInt8) (x : Parse k) : Prop where
  data : k.data x.state = input
  held : k.Held x.state
  pos : (k.cursor x.state).pos < 2 ^ 64
  slots : ∀ w ∈ k.slots x.state, w.2 ≤ input.length
  saved : ∀ at_ ∈ x.saved, at_.1 < 2 ^ 64 ∧ k.Held (k.restore at_.1 at_.2 x.state)

/-- `P` of every read of a run. -/
def Along (P : k.State → Take k → Prop) : List (Op k) → Parse k → Prop
  | [], _ => True
  | op :: ops, x => (∀ t, op = .take t → P x.state t) ∧ Along P ops (x.step op)

end Parse

/-! ## What an operation leaves -/

/-- An operation that keeps the input, and goes to a cursor and slots of it. -/
structure Kind.Keeps (k : Kind) (s s' : k.State) : Prop where
  data : k.data s' = k.data s
  held : k.Held s'
  pos : (k.cursor s').pos < 2 ^ 64
  slots : ∀ w ∈ k.slots s', w.2 ≤ (k.data s).length
  /-- A checkpoint that could be gone back to still can. -/
  later : ∀ pos depth, k.Held (k.restore pos depth s) → k.Held (k.restore pos depth s')

/-- The window of a cursor ends within the input if every slot does. -/
theorem Reader.effectiveEnd_le {r : Reader} (h : ∀ w ∈ r.intervals, w.2 ≤ r.data.length) :
    r.effectiveEnd ≤ r.data.length := by
  unfold effectiveEnd
  cases hlast : r.intervals.getLast? with
  | none => exact le_refl _
  | some w => exact h w (List.mem_of_getLast? hlast)

theorem Ctx.effectiveEnd_le {c : Ctx} (h : ∀ w ∈ c.intervals, w.2 ≤ c.data.length) :
    c.effectiveEnd ≤ c.data.length := by
  unfold effectiveEnd window
  split
  · exact le_refl _
  · rename_i d _
    cases hslot : c.intervals[d]? with
    | none => exact le_refl _
    | some w => exact h w (List.mem_of_getElem? hslot)

section

variable {r : Reader} (hslots : ∀ w ∈ r.intervals, w.2 ≤ r.data.length)
include hslots

theorem Reader.seek_keeps (hpos : r.pos < 2 ^ 64) (hsmall : r.data.length < 2 ^ 63) (target : Nat) :
    Kind.view.Keeps r (r.seekChecked target).2 := by
  unfold seekChecked
  split
  · exact ⟨rfl, trivial, hpos, hslots, fun _ _ _ => trivial⟩
  · rename_i h
    exact ⟨rfl, trivial, show target < 2 ^ 64 by omega, hslots, fun _ _ _ => trivial⟩

theorem Reader.push_keeps (hpos : r.pos < 2 ^ 64) (stop : Nat) :
    Kind.view.Keeps r (r.pushIntervalChecked stop).2 := by
  have hend := Reader.effectiveEnd_le hslots
  unfold pushIntervalChecked
  split
  · exact ⟨rfl, trivial, hpos, hslots, fun _ _ _ => trivial⟩
  · rename_i h
    refine ⟨rfl, trivial, hpos, fun w hw => ?_, fun _ _ _ => trivial⟩
    rcases List.mem_append.1 hw with hw | hw
    · exact hslots w hw
    · rw [List.mem_singleton.1 hw]
      show stop ≤ r.data.length
      omega

theorem Reader.pop_keeps (hpos : r.pos < 2 ^ 64) : Kind.view.Keeps r r.popInterval :=
  ⟨rfl, trivial, hpos, fun w hw => hslots w ((List.dropLast_sublist _).subset hw), fun _ _ _ => trivial⟩

theorem Reader.popChecked_keeps (hpos : r.pos < 2 ^ 64) : Kind.view.Keeps r r.popIntervalChecked.2 := by
  unfold popIntervalChecked
  split
  · exact ⟨rfl, trivial, hpos, hslots, fun _ _ _ => trivial⟩
  · split
    · exact ⟨rfl, trivial, hpos, (Reader.pop_keeps hslots hpos).slots, fun _ _ _ => trivial⟩
    · exact Reader.pop_keeps hslots hpos

theorem Reader.restore_keeps {pos : Nat} (hpos : pos < 2 ^ 64) (depth : Nat) :
    Kind.view.Keeps r (r.restore pos depth) := by
  refine ⟨rfl, trivial, hpos, fun w hw => ?_, fun _ _ _ => trivial⟩
  rcases List.mem_append.1 hw with hw | hw
  · exact hslots w (List.mem_of_mem_take hw)
  · rw [List.eq_of_mem_replicate hw]
    exact Nat.zero_le _

end

section

variable {c : Ctx} (hc : c.Held) (hslots : ∀ w ∈ c.intervals, w.2 ≤ c.data.length)
include hc hslots

theorem Ctx.seek_keeps (hpos : c.pos < 2 ^ 64) (hsmall : c.data.length < 2 ^ 63) (target : Nat) :
    Kind.lite.Keeps c (c.seekChecked target).2 := by
  unfold seekChecked
  split
  · exact ⟨rfl, hc, hpos, hslots, fun _ _ h => h⟩
  · exact ⟨rfl, hc, show target < 2 ^ 64 by omega, hslots, fun _ _ h => h⟩

theorem Ctx.push_keeps (hpos : c.pos < 2 ^ 64) (stop : Nat) : Kind.lite.Keeps c (c.pushIntervalChecked stop).2 := by
  have hend := Ctx.effectiveEnd_le hslots
  unfold pushIntervalChecked
  split
  · exact ⟨rfl, hc, hpos, hslots, fun _ _ h => h⟩
  · have hstop : stop ≤ c.data.length := by omega
    have hlen := (Cek.windows_push hc (c.pos, stop)).2
    refine ⟨rfl, hlen, hpos, fun w hw => ?_, fun _ _ h => ?_⟩
    · simp only [Kind.slots] at hw
      split at hw
      · rcases List.mem_append.1 hw with hw | hw
        · exact hslots w hw
        · rw [List.mem_singleton.1 hw]
          exact hstop
      · rcases List.mem_or_eq_of_mem_set hw with hw | hw
        · exact hslots w hw
        · rw [hw]
          exact hstop
    · simp only [Kind.Held, Kind.restore, Ctx.Held, Ctx.restore] at h ⊢
      split <;> simp <;> omega

theorem Ctx.pop_keeps (hpos : c.pos < 2 ^ 64) : Kind.lite.Keeps c c.popInterval :=
  ⟨rfl, (Nat.sub_le _ _).trans hc, hpos, hslots, fun _ _ h => h⟩

theorem Ctx.popChecked_keeps (hpos : c.pos < 2 ^ 64) : Kind.lite.Keeps c c.popIntervalChecked.2 := by
  have hpop := Ctx.pop_keeps hc hslots hpos
  unfold popIntervalChecked
  split
  · exact ⟨rfl, hc, hpos, hslots, fun _ _ h => h⟩
  · split
    · exact ⟨rfl, hpop.held, hpos, hslots, fun _ _ h => h⟩
    · exact hpop

omit hc in
theorem Ctx.restore_keeps {pos depth : Nat} (hpos : pos < 2 ^ 64) (hdepth : (c.restore pos depth).Held) :
    Kind.lite.Keeps c (c.restore pos depth) :=
  ⟨rfl, hdepth, hpos, hslots, fun _ _ h => h⟩

end

/-- The two C readers share their context. -/
theorem Kind.Keeps.owning {c c' : Ctx} (h : Kind.lite.Keeps c c') (alloc : Alloc) : (Kind.owning alloc).Keeps c c' :=
  ⟨h.data, h.held, h.pos, h.slots, h.later⟩

theorem Kind.held_restore {k : Kind} {s s' : k.State} (h : k.slots s' = k.slots s) (pos depth : Nat)
    (hs : k.Held (k.restore pos depth s)) : k.Held (k.restore pos depth s') := by
  cases k with
  | view => trivial
  | lite => exact hs.trans_eq (congrArg List.length h).symm
  | owning alloc => exact hs.trans_eq (congrArg List.length h).symm

namespace Parse

variable {k : Kind} {input : List UInt8} {x : Parse k}

theorem Ok.of_keeps (h : Ok input x) {s : k.State} (hk : k.Keeps x.state s) {spans : List Span} :
    Ok input { x with state := s, spans } where
  data := hk.data.trans h.data
  held := hk.held
  pos := hk.pos
  slots w hw := (hk.slots w hw).trans_eq (congrArg List.length h.data)
  saved m hm := ⟨(h.saved m hm).1, hk.later _ _ (h.saved m hm).2⟩

/-- Every slot ends within the state's own input. -/
theorem Ok.inside (h : Ok input x) : ∀ w ∈ k.slots x.state, w.2 ≤ (k.data x.state).length := fun w hw =>
  (h.slots w hw).trans_eq (congrArg List.length h.data).symm

theorem Ok.take_keeps (h : Ok input x) (t : Take k) : k.Keeps x.state (t.call x.state).2 := by
  have hm := t.call_moves h.held
  refine ⟨hm.data, hm.held, ?_, fun w hw => h.inside w (hm.slots ▸ hw), Kind.held_restore hm.slots⟩
  rw [hm.cursor]
  have hpos := h.pos
  unfold Take.answer Cursor.wrapped
  split
  · exact hpos
  · split
    · split
      · exact hpos
      · exact Nat.mod_lt _ (by decide)
    · exact hpos

theorem Ok.seek_keeps (h : Ok input x) (hsmall : input.length < 2 ^ 63) (target : Nat) :
    k.Keeps x.state (k.seek target x.state) := by
  have hin := h.inside
  have hs := (congrArg List.length h.data).trans_lt hsmall
  cases k with
  | view => exact Reader.seek_keeps hin h.pos hs target
  | lite => exact Ctx.seek_keeps h.held hin h.pos hs target
  | owning alloc => exact (Ctx.seek_keeps h.held hin h.pos hs target).owning alloc

theorem Ok.push_keeps (h : Ok input x) (stop : Nat) : k.Keeps x.state (k.push stop x.state) := by
  have hin := h.inside
  cases k with
  | view => exact Reader.push_keeps hin h.pos stop
  | lite => exact Ctx.push_keeps h.held hin h.pos stop
  | owning alloc => exact (Ctx.push_keeps h.held hin h.pos stop).owning alloc

theorem Ok.pop_keeps (h : Ok input x) (checked : Bool) : k.Keeps x.state (k.pop checked x.state) := by
  have hin := h.inside
  cases k with
  | view =>
    cases checked with
    | true => exact Reader.popChecked_keeps hin h.pos
    | false => exact Reader.pop_keeps hin h.pos
  | lite =>
    cases checked with
    | true => exact Ctx.popChecked_keeps h.held hin h.pos
    | false => exact Ctx.pop_keeps h.held hin h.pos
  | owning alloc =>
    cases checked with
    | true => exact (Ctx.popChecked_keeps h.held hin h.pos).owning alloc
    | false => exact (Ctx.pop_keeps h.held hin h.pos).owning alloc

theorem Ok.restore_keeps (h : Ok input x) {pos depth : Nat} (hm : (pos, depth) ∈ x.saved) :
    k.Keeps x.state (k.restore pos depth x.state) := by
  have hin := h.inside
  obtain ⟨hpos, hdepth⟩ := h.saved _ hm
  cases k with
  | view => exact Reader.restore_keeps hin hpos depth
  | lite => exact Ctx.restore_keeps hin hpos hdepth
  | owning alloc => exact (Ctx.restore_keeps hin hpos hdepth).owning alloc

/-- A checkpoint just made can be gone back to. -/
theorem Ok.held_saved (h : Ok input x) : k.Held (k.restore (k.cursor x.state).pos (k.depth x.state) x.state) := by
  have hheld := h.held
  cases k with
  | view => trivial
  | lite => exact hheld
  | owning alloc => exact hheld

theorem Ok.step (h : Ok input x) (hsmall : input.length < 2 ^ 63) (op : Op k) : Ok input (x.step op) := by
  cases op with
  | take t => exact h.of_keeps (h.take_keeps t)
  | seek target => exact h.of_keeps (h.seek_keeps hsmall _)
  | push relative v => exact h.of_keeps (h.push_keeps _)
  | pop checked => exact h.of_keeps (h.pop_keeps checked)
  | save =>
    refine ⟨h.data, h.held, h.pos, h.slots, fun m hm => ?_⟩
    rcases List.mem_cons.1 hm with rfl | hm
    · exact ⟨h.pos, h.held_saved⟩
    · exact h.saved m hm
  | restore =>
    simp only [Parse.step]
    split
    · exact h
    · rename_i pos depth rest hsaved
      have hmem : ∀ m ∈ rest, m ∈ x.saved := fun m hm => by
        rw [hsaved]
        exact List.mem_cons_of_mem _ hm
      have hk := h.restore_keeps (show (pos, depth) ∈ x.saved by rw [hsaved]; exact List.mem_cons_self)
      have : Ok input { x with state := k.restore pos depth x.state } := h.of_keeps hk
      exact ⟨this.data, this.held, this.pos, this.slots, fun m hm => this.saved m (hmem m hm)⟩

theorem init_ok (k : Kind) (input : List UInt8) : Ok input (init k input) := by
  cases k with
  | view => exact ⟨rfl, trivial, Nat.two_pow_pos 64, fun _ hw => (nomatch hw), fun _ hm => (nomatch hm)⟩
  | lite => exact ⟨rfl, le_refl _, Nat.two_pow_pos 64, fun _ hw => (nomatch hw), fun _ hm => (nomatch hm)⟩
  | owning alloc => exact ⟨rfl, le_refl _, Nat.two_pow_pos 64, fun _ hw => (nomatch hw), fun _ hm => (nomatch hm)⟩

/-- Reads of a run are bounded exactly where their sums fit. -/
theorem along_bounded_iff (hsmall : input.length < 2 ^ 63) (ops : List (Op k)) (h : Ok input x) :
    Along (fun s t => t.Bounded s) ops x ↔ Along (fun s t => t.Fits s) ops x := by
  induction ops generalizing x with
  | nil => exact Iff.rfl
  | cons op ops ih =>
    exact and_congr (forall₂_congr fun t _ => t.bounded_iff h.held h.pos) (ih (h.step hsmall op))

theorem Ok.effectiveEnd_le (h : Ok input x) :
    (k.cursor x.state).effectiveEnd (k.data x.state) ≤ input.length := by
  have hin := h.inside
  have hheld := h.held
  rw [← congrArg List.length h.data]
  cases k with
  | view => exact (Reader.cursor_effectiveEnd _).trans_le (Reader.effectiveEnd_le hin)
  | lite => exact (Ctx.cursor_effectiveEnd hheld).trans_le (Ctx.effectiveEnd_le hin)
  | owning alloc => exact (Ctx.cursor_effectiveEnd hheld).trans_le (Ctx.effectiveEnd_le hin)

/-- A bounded read records a span within its window. -/
theorem spans_take (h : Ok input x) {t : Take k} (hb : t.Bounded x.state) (hspans : ∀ s ∈ x.spans, s.Within input) :
    ∀ s ∈ (x.step (.take t)).spans, s.Within input := by
  intro s hs
  simp only [Parse.step] at hs
  split at hs
  · rename_i hok
    rcases List.mem_append.1 hs with hs | hs
    · exact hspans s hs
    · rw [List.mem_singleton.1 hs]
      unfold Take.Bounded at hb
      split at hb
      · rw [hb.1] at hok
        cases hok
      · rcases hb with ⟨hfail, _⟩ | ⟨_, hafter, hend⟩
        · rw [hfail] at hok
          cases hok
        · rw [hafter]
          exact ⟨Nat.le_add_right _ _, hend, h.effectiveEnd_le⟩
  · exact hspans s hs

theorem spans_run (hsmall : input.length < 2 ^ 63) (ops : List (Op k)) (h : Ok input x)
    (hb : Along (fun s t => t.Bounded s) ops x) (hspans : ∀ s ∈ x.spans, s.Within input) :
    ∀ s ∈ (x.run ops).spans, s.Within input := by
  induction ops generalizing x with
  | nil => exact hspans
  | cons op ops ih =>
    refine ih (h.step hsmall op) hb.2 ?_
    cases op with
    | take t => exact spans_take h (hb.1 t rfl) hspans
    | seek target => exact hspans
    | push relative v => exact hspans
    | pop checked => exact hspans
    | save => exact hspans
    | restore =>
      simp only [Parse.step]
      split <;> exact hspans

end Parse

/-- **Advances are bounded** in a run exactly where the sums of all its reads fit, and then every span it records is one
of its window. -/
theorem advances_bounded (k : Kind) (input : List UInt8) (hsmall : input.length < 2 ^ 63) (ops : List (Op k)) :
    (Parse.Along (fun s t => t.Bounded s) ops (.init k input) ↔ Parse.Along (fun s t => t.Fits s) ops (.init k input)) ∧
      (Parse.Along (fun s t => t.Fits s) ops (.init k input) →
        ∀ s ∈ (Parse.run (.init k input) ops).spans, s.start ≤ s.stop ∧ s.stop ≤ s.limit ∧ s.limit ≤ input.length) := by
  have hiff := Parse.along_bounded_iff hsmall ops (Parse.init_ok k input)
  exact ⟨hiff, fun hfits => Parse.spans_run hsmall ops (Parse.init_ok k input) (hiff.2 hfits) fun _ hs => (nomatch hs)⟩

/-- Two bytes read of four. -/
theorem advances_bounded_two :
    Parse.Along (fun s t => t.Bounded s) [.take (.bytes 2)] (.init .view [1, 2, 3, 4]) :=
  (advances_bounded .view [1, 2, 3, 4] (by decide) [.take (.bytes 2)]).1.2
    ⟨fun t ht n hn _ => by cases ht; cases hn; exact Or.inl (by decide), trivial⟩

/-- A length of -1 after two of four bytes: the cursor goes back by one, and the span ends before it starts. -/
theorem advance_goes_back :
    (Parse.run (.init .view [1, 2, 3, 4]) [.take (.bytes 2), .take (.bytes (UInt64.ofInt (-1)))]).spans =
        [⟨0, 2, 4⟩, ⟨2, 1, 4⟩] ∧
      (Parse.run (.init .lite [1, 2, 3, 4]) [.take (.bytes 2), .take (.bytes (UInt64.ofInt (-1)))]).spans =
        [⟨0, 2, 4⟩, ⟨2, 1, 4⟩] ∧
      ¬ Parse.Along (fun s t => t.Bounded s) [.take (.bytes 2), .take (.bytes (UInt64.ofInt (-1)))]
        (.init .view [1, 2, 3, 4]) := by
  refine ⟨by decide, by decide, fun h => ?_⟩
  rcases h.2.1 _ rfl with ⟨hok, _⟩ | ⟨_, hafter, _⟩
  · exact absurd hok (by decide)
  · exact absurd (congrArg Cursor.pos hafter) (by decide)

end Bbq.Windows
