import Bbq.Windows.Program

/-!
# When windows round-trip

Where a window is left, the writer moves to its end and the reader stays where the content ended: both
are in the same place only if the window is filled. Where a window starts before the cursor, the writer drops
what is written from there on, and going forward again leaves zeros. `windows_roundTrip_iff` says exactly when a
value that was parsed survives both.
-/

namespace Bbq.Windows

open Bbq.Lib Bbq.Lib.Tape

/-- What a write does to the buffer. -/
def moves : List Event → List (List UInt8 ⊕ Nat)
  | [] => []
  | .field _ bs :: es => .inl bs :: moves es
  | .sought t :: es => .inr t :: moves es
  | _ :: es => moves es

/-- Where the fields are. -/
def fields : List Event → List (Nat × List UInt8)
  | [] => []
  | .field pos bs :: es => (pos, bs) :: fields es
  | _ :: es => fields es

/-- Where the cursor is after each window. -/
def marks : List Event → List Nat
  | [] => []
  | .closed pos _ :: es => pos :: marks es
  | _ :: es => marks es

/-- The bytes are in the buffer, at that position. -/
def Shows (data : List UInt8) (q : Nat × List UInt8) : Prop := (data.drop q.1).take q.2.length = q.2

/-- A value makes the round trip: the writer writes it, every field's bytes are in the buffer where they were
written, and the reader reads the value back, the cursor after each window where the writer's was. -/
def RoundTrips (p : Program) (v : Value) : Prop :=
  ∃ r, p.write v .init = some r ∧ (∀ q ∈ r.places, Shows r.data q) ∧
    ∃ es stop, p.read r.data ⟨0, []⟩ = some (v, es, stop) ∧ marks es = r.marks

/-- A parse the C writer can put back. -/
structure Clean (es : List Event) (stop : Nat) : Prop where
  /-- The content of every window ends where the window does. -/
  filled : ∀ pos e, .closed pos e ∈ es → e = some pos
  /-- Nothing was looked for behind the last field. -/
  sought : ∀ t, .sought t ∈ es → t ≤ stop
  opened : ∀ s e, .opened s e ∈ es → e ≤ stop
  /-- The cursor goes back over zeros only, and past them again. -/
  kept : Kept 0 (moves es)
  /-- No decision depends on a byte that is not part of the value. -/
  decided : ∀ look n, .decided look n ∈ es → ∀ input : List UInt8, input.length = stop → Picture 0 (fields es) input →
    look input = some n

/-- The reads that succeed, operation by operation. -/
inductive Reads (input : List UInt8) : Program → Cursor → Value → List Event → Nat → Prop
  | done {c : Cursor} : Reads input .done c [] [] c.pos
  | field {c : Cursor} {v : Value} {es : List Event} {stop : Nat} {w : Width} {next : List UInt8 → Program}
      {bs : List UInt8} (hw : w.of ((input.take (c.effectiveEnd input)).drop c.pos) = some bs.length)
      (hbs : Shows input (c.pos, bs)) (hr : Reads input (next bs) { c with pos := c.pos + bs.length } v es stop) :
      Reads input (.field w next) c (.bytes bs :: v) (.field c.pos bs :: es) stop
  | branch {c : Cursor} {v : Value} {es : List Event} {stop : Nat}
      {look : List UInt8 → Cursor → Option Nat} {next : Nat → Program} {n : Nat} (hl : look input c = some n)
      (hr : Reads input (next n) c v es stop) :
      Reads input (.branch look next) c (.decision n :: v) (.decided (fun i => look i c) n :: es) stop
  | seek {c : Cursor} {v : Value} {es : List Event} {stop : Nat}
      {target : Nat} {next : Program} (ht : target ≤ input.length)
      (hr : Reads input next { c with pos := target } v es stop) :
      Reads input (.seek target next) c v (.sought target :: es) stop
  | push {c : Cursor} {v : Value} {es : List Event} {stop : Nat}
      {relative : Bool} {n e : Nat} {next : Program} (he : e = if relative then c.pos + n else n)
      (hin : c.pos ≤ e ∧ c.effectiveStart ≤ c.pos ∧ e ≤ c.effectiveEnd input)
      (hr : Reads input next { c with intervals := (c.pos, e) :: c.intervals } v es stop) :
      Reads input (.pushInterval relative n next) c v (.opened c.pos e :: es) stop
  | pop {c : Cursor} {v : Value} {es : List Event} {stop : Nat}
      {checked : Bool} {next : Program} {e : Option Nat} (he : e = c.intervals.head?.map Prod.snd)
      (hc : checked = true → e = some c.pos) (hr : Reads input next { c with intervals := c.intervals.tail } v es stop) :
      Reads input (.popInterval checked next) c v (.closed c.pos e :: es) stop

section

variable {p : Program} {input input' data bs : List UInt8} {c : Cursor} {v : Value} {es es' : List Event}
  {stop stop' pos : Nat}

/-! ## Fields in a buffer -/

theorem shows_iff {q : Nat × List UInt8} :
    Shows data q ↔ ∀ (x : Nat) (a : UInt8), q.2[x]? = some a → data[q.1 + x]? = some a := by
  constructor
  · intro h x a ha
    have hx := (List.getElem?_eq_some_iff.1 ha).1
    have hget : ((data.drop q.1).take q.2.length)[x]? = some a := (congrArg (·[x]?) h).trans ha
    rwa [List.getElem?_take, if_pos hx, List.getElem?_drop] at hget
  · intro h
    refine List.ext_getElem? fun x => ?_
    rw [List.getElem?_take, List.getElem?_drop]
    by_cases hx : x < q.2.length
    · rw [if_pos hx, List.getElem?_eq_getElem hx]
      exact h x _ (List.getElem?_eq_getElem hx)
    · rw [if_neg hx, List.getElem?_eq_none (Nat.not_lt.1 hx)]

theorem picture_unique {ps : List (Nat × List UInt8)} (hlen : data.length = input.length) (hd : Picture 0 ps data)
    (hi : Picture 0 ps input) : data = input := by
  refine List.ext_getElem? fun y => ?_
  by_cases hy : y < data.length
  · by_cases hc : ∃ q ∈ ps, Covers q y
    · obtain ⟨q, hq, hle, hlt⟩ := hc
      have hin : y - q.1 < q.2.length := by omega
      obtain ⟨a, ha⟩ : ∃ a, q.2[y - q.1]? = some a := ⟨_, List.getElem?_eq_getElem hin⟩
      have hy' : q.1 + (y - q.1) = y := by omega
      rw [← hy', hd.written q hq _ a ha, hi.written q hq _ a ha]
    · have hfree : ∀ q ∈ ps, ¬ Covers q y := fun q hq hcov => hc ⟨q, hq, hcov⟩
      rw [hd.blank y hy hfree, hi.blank y (hlen ▸ hy) hfree]
  · rw [List.getElem?_eq_none (Nat.not_lt.1 hy), List.getElem?_eq_none (by omega)]

/-! ## The reader -/

theorem length_field {w : Width} {n e : Nat} (hw : w.of ((input.take e).drop pos) = some n) :
    ((input.drop pos).take n).length = n := by
  obtain ⟨hle, -⟩ := w.stable _ _ [] hw
  rw [List.length_drop, List.length_take] at hle
  rw [List.length_take, List.length_drop]
  omega

/-- **Inversion** of the reader. -/
theorem read_iff : p.read input c = some (v, es, stop) ↔ Reads input p c v es stop := by
  constructor
  · intro h
    induction p generalizing c v es stop with
    | done =>
      cases h
      exact .done
    | fail => cases h
    | field w next ih =>
      unfold Program.read at h
      cases hw : w.of ((input.take (c.effectiveEnd input)).drop c.pos) with
      | none => simp [hw] at h
      | some n =>
        simp only [hw] at h
        have hlen := length_field hw
        generalize hbs : (input.drop c.pos).take n = bs at h hlen
        subst hlen
        obtain ⟨⟨v, es, stop⟩, hr, he⟩ := Option.map_eq_some_iff.1 h
        cases he
        exact .field hw hbs (ih _ hr)
    | branch look next ih =>
      unfold Program.read at h
      cases hl : look input c with
      | none => simp [hl] at h
      | some n =>
        simp only [hl] at h
        obtain ⟨⟨v, es, stop⟩, hr, he⟩ := Option.map_eq_some_iff.1 h
        cases he
        exact .branch hl (ih _ hr)
    | seek target next ih =>
      unfold Program.read Cursor.seekChecked at h
      by_cases ht : input.length < target
      · simp [ht] at h
      · simp only [if_neg ht] at h
        obtain ⟨⟨v, es, stop⟩, hr, he⟩ := Option.map_eq_some_iff.1 h
        cases he
        exact .seek (Nat.not_lt.1 ht) (ih hr)
    | pushInterval relative n next ih =>
      unfold Program.read Cursor.pushIntervalChecked at h
      generalize he : (if relative then c.pos + n else n) = e at h
      by_cases hin : e < c.pos ∨ c.pos < c.effectiveStart ∨ c.effectiveEnd input < e
      · simp [hin] at h
      · simp only [if_neg hin] at h
        obtain ⟨⟨v, es, stop⟩, hr, hev⟩ := Option.map_eq_some_iff.1 h
        cases hev
        exact .push he.symm (by omega) (ih hr)
    | popInterval checked next ih =>
      unfold Program.read at h
      cases checked with
      | false =>
        obtain ⟨⟨v, es, stop⟩, hr, hev⟩ := Option.map_eq_some_iff.1 h
        cases hev
        exact .pop rfl (fun hf => by cases hf) (ih hr)
      | true =>
        obtain ⟨pos, intervals⟩ := c
        unfold Cursor.popIntervalChecked at h
        cases intervals with
        | nil => simp at h
        | cons w rest =>
          obtain ⟨s, e⟩ := w
          by_cases hpos : pos = e
          · subst hpos
            simp only [ne_eq, not_true_eq_false, if_false, if_true] at h
            obtain ⟨⟨v, es, stop⟩, hr, hev⟩ := Option.map_eq_some_iff.1 h
            cases hev
            exact .pop rfl (fun _ => rfl) (ih hr)
          · simp [hpos] at h
  · intro h
    induction h with
    | done => rfl
    | field hw hbs _ ih => simp only [Program.read, hw, show (input.drop _).take _ = _ from hbs, ih, Option.map_some]
    | branch hl _ ih => simp only [Program.read, hl, ih, Option.map_some]
    | seek ht _ ih => simp only [Program.read, Cursor.seekChecked, if_neg (Nat.not_lt.2 ht), ih, Option.map_some]
    | @push c v es stop relative n e next he hin _ ih =>
      subst he
      have hnot : ¬ ((if relative then c.pos + n else n) < c.pos ∨ c.pos < c.effectiveStart ∨
        c.effectiveEnd input < if relative then c.pos + n else n) := by omega
      simp only [Program.read, Cursor.pushIntervalChecked, if_neg hnot, ih, Option.map_some]
    | @pop c v es stop checked next e he hc _ ih =>
      subst he
      cases checked with
      | false => simp only [Program.read, Cursor.popInterval, ih, Option.map_some, Bool.false_eq_true, if_false]
      | true =>
        obtain ⟨⟨s, e⟩, hw, he⟩ := Option.map_eq_some_iff.1 (hc rfl)
        obtain ⟨rest, hrest⟩ : ∃ rest, c.intervals = (s, e) :: rest := List.head?_eq_some_iff.1 hw
        simp only at he
        simp only [hrest, List.tail_cons] at ih
        simp only [Program.read, Cursor.popIntervalChecked, hrest, he, ne_eq, not_true_eq_false, if_false, if_true, ih,
          Option.map_some, List.head?_cons]

/-- Two inputs that read as one value read alike. -/
theorem Reads.unique (h : Reads input p c v es stop) (h' : Reads input' p c v es' stop') : es' = es ∧ stop' = stop := by
  induction h generalizing es' stop' with
  | done =>
    cases h'
    exact ⟨rfl, rfl⟩
  | field _ _ _ ih =>
    cases h' with
    | field _ _ hr' =>
      obtain ⟨rfl, rfl⟩ := ih hr'
      exact ⟨rfl, rfl⟩
  | branch _ _ ih =>
    cases h' with
    | branch _ hr' =>
      obtain ⟨rfl, rfl⟩ := ih hr'
      exact ⟨rfl, rfl⟩
  | seek _ _ ih =>
    cases h' with
    | seek _ hr' =>
      obtain ⟨rfl, rfl⟩ := ih hr'
      exact ⟨rfl, rfl⟩
  | push he _ _ ih =>
    cases h' with
    | push he' _ hr' =>
      obtain rfl := he'.trans he.symm
      obtain ⟨rfl, rfl⟩ := ih hr'
      exact ⟨rfl, rfl⟩
  | pop he _ _ ih =>
    cases h' with
    | pop he' _ hr' =>
      obtain rfl := he'.trans he.symm
      obtain ⟨rfl, rfl⟩ := ih hr'
      exact ⟨rfl, rfl⟩

/-- The reader's cursor follows the fields and the seeks. -/
theorem Reads.fields_eq (h : Reads input p c v es stop) :
    fields es = places c.pos (moves es) ∧ stop = finish c.pos (moves es) := by
  induction h with
  | done => exact ⟨rfl, rfl⟩
  | field _ _ _ ih => exact ⟨congrArg _ ih.1, ih.2⟩
  | branch _ _ ih => exact ih
  | seek _ _ ih => exact ih
  | push _ _ _ ih => exact ih
  | pop _ _ _ ih => exact ih

theorem effectiveEnd_le (hc : ∀ w ∈ c.intervals, w.2 ≤ input.length) : c.effectiveEnd input ≤ input.length := by
  obtain ⟨pos, intervals⟩ := c
  cases intervals with
  | nil => exact Nat.le_refl _
  | cons w rest => exact hc w List.mem_cons_self

/-- What the reader looks for is in the input, and it decides as it does. -/
theorem Reads.bounded (h : Reads input p c v es stop) (hc : ∀ w ∈ c.intervals, w.2 ≤ input.length) :
    (∀ t, .sought t ∈ es → t ≤ input.length) ∧ (∀ s e, .opened s e ∈ es → e ≤ input.length) ∧
      ∀ look n, .decided look n ∈ es → look input = some n := by
  induction h with
  | done => exact ⟨(fun _ ht => nomatch ht), (fun _ _ he => nomatch he), (fun _ _ hl => nomatch hl)⟩
  | field _ _ _ ih =>
    obtain ⟨hs, ho, hd⟩ := ih hc
    simp only [List.mem_cons, reduceCtorEq, false_or]
    exact ⟨hs, ho, hd⟩
  | branch hl _ ih =>
    obtain ⟨hs, ho, hd⟩ := ih hc
    simp only [List.mem_cons, reduceCtorEq, false_or]
    refine ⟨hs, ho, fun look n hmem => ?_⟩
    rcases hmem with heq | hmem
    · cases heq
      exact hl
    · exact hd look n hmem
  | seek ht _ ih =>
    obtain ⟨hs, ho, hd⟩ := ih hc
    simp only [List.mem_cons, reduceCtorEq, false_or]
    refine ⟨fun t hmem => ?_, ho, hd⟩
    rcases hmem with heq | hmem
    · cases heq
      exact ht
    · exact hs t hmem
  | push _ hin _ ih =>
    have hle := Nat.le_trans hin.2.2 (effectiveEnd_le hc)
    obtain ⟨hs, ho, hd⟩ := ih (List.forall_mem_cons.2 ⟨hle, hc⟩)
    simp only [List.mem_cons, reduceCtorEq, false_or]
    refine ⟨hs, fun s e hmem => ?_, hd⟩
    rcases hmem with heq | hmem
    · cases heq
      exact hle
    · exact ho s e hmem
  | pop _ _ _ ih =>
    obtain ⟨hs, ho, hd⟩ := ih fun w hw => hc w (List.mem_of_mem_tail hw)
    simp only [List.mem_cons, reduceCtorEq, false_or]
    exact ⟨hs, ho, hd⟩

/-! ## The writer -/

/-- The writer stands where the reader does. -/
structure Beside (c : Cursor) (o : Output) : Prop where
  growable : o.writer.capacity = none
  pos : o.writer.data.length = c.pos
  intervals : o.intervals = c.intervals

theorem seek_growable {w : Writer} (hw : w.capacity = none) (t : Nat) : w.seek t = some { w with data := goTo 0 t w.data } := by
  unfold Writer.seek Writer.reserve goTo
  rw [hw]
  by_cases ht : w.data.length < t
  · rw [if_pos ht, if_pos rfl, List.take_of_length_le (Nat.le_of_lt ht)]
  · rw [if_neg ht, Nat.sub_eq_zero_of_le (Nat.not_lt.1 ht), List.replicate_zero, List.append_nil]

theorem write_growable {w : Writer} (hw : w.capacity = none) (bs : List UInt8) :
    w.write bs = some { w with data := w.data ++ bs } := by
  unfold Writer.write Writer.reserve
  rw [hw]
  exact if_pos rfl

/-- A window that is left: the writer moves to its end. -/
theorem popInterval_of_cons {o : Output} (hw : o.writer.capacity = none) {s e : Nat} {rest : List (Nat × Nat)}
    (ho : o.intervals = (s, e) :: rest) :
    o.popInterval = some ⟨{ o.writer with data := goTo 0 e o.writer.data }, rest⟩ := by
  unfold Output.popInterval
  rw [ho]
  simp only [seek_growable hw, Option.map_some]

/-- **Where the windows are filled**, the writer moves as the reader does. -/
theorem Reads.write_eq (h : Reads input p c v es stop) (hfilled : ∀ pos e, .closed pos e ∈ es → e = some pos)
    {o : Output} (hb : Beside c o) : p.write v o = some ⟨Tape.run 0 o.writer.data (moves es), fields es, marks es⟩ := by
  induction h generalizing o with
  | done => rfl
  | @field c v es stop w next bs _ _ _ ih =>
    have hb' : Beside { c with pos := c.pos + bs.length } { o with writer := { o.writer with data := o.writer.data ++ bs } } :=
      ⟨hb.growable, by rw [List.length_append, hb.pos], hb.intervals⟩
    simp only [Program.write, write_growable hb.growable,
      ih (fun pos e hmem => hfilled pos e (List.mem_cons_of_mem _ hmem)) hb', Option.map_some, hb.pos]
    rfl
  | branch _ _ ih => exact ih (fun pos e hmem => hfilled pos e (List.mem_cons_of_mem _ hmem)) hb
  | @seek c v es stop t next _ _ ih =>
    have hb' : Beside { c with pos := t } { o with writer := { o.writer with data := goTo 0 t o.writer.data } } :=
      ⟨hb.growable, length_goTo, hb.intervals⟩
    simp only [Program.write, seek_growable hb.growable]
    exact ih (fun pos e hmem => hfilled pos e (List.mem_cons_of_mem _ hmem)) hb'
  | @push c v es stop relative n e next he _ _ ih =>
    have hb' : Beside { c with intervals := (c.pos, e) :: c.intervals } (o.pushInterval e) :=
      ⟨hb.growable, hb.pos, by rw [← hb.pos, ← hb.intervals]; rfl⟩
    simp only [Program.write, hb.pos, ← he]
    exact ih (fun pos e hmem => hfilled pos e (List.mem_cons_of_mem _ hmem)) hb'
  | @pop c v es stop checked next e he _ _ ih =>
    have hstop := he.symm.trans (hfilled c.pos e List.mem_cons_self)
    obtain ⟨⟨s, e'⟩, hhead, rfl⟩ := Option.map_eq_some_iff.1 hstop
    obtain ⟨rest, hrest⟩ := List.head?_eq_some_iff.1 hhead
    have hb' : Beside { c with intervals := c.intervals.tail } ⟨o.writer, rest⟩ :=
      ⟨hb.growable, hb.pos, by rw [hrest]; rfl⟩
    have hsame : goTo 0 c.pos o.writer.data = o.writer.data := hb.pos ▸ goTo_length
    have hpop := popInterval_of_cons hb.growable (hb.intervals.trans hrest)
    simp only [hsame] at hpop
    simp only [Program.write, hpop, ih (fun pos e hmem => hfilled pos e (List.mem_cons_of_mem _ hmem)) hb', Option.map_some,
      hb.pos]
    rfl

/-- **Where the cursors agree** after every window, the windows are filled. -/
theorem Reads.filled_of_marks (h : Reads input p c v es stop) {o : Output} (hb : Beside c o) {r : Written}
    (hw : p.write v o = some r) (hm : marks es = r.marks) : ∀ pos e, .closed pos e ∈ es → e = some pos := by
  induction h generalizing o r with
  | done => exact fun _ _ hmem => nomatch hmem
  | @field c v es stop w next bs _ _ _ ih =>
    have hb' : Beside { c with pos := c.pos + bs.length } { o with writer := { o.writer with data := o.writer.data ++ bs } } :=
      ⟨hb.growable, by rw [List.length_append, hb.pos], hb.intervals⟩
    simp only [Program.write, write_growable hb.growable] at hw
    obtain ⟨r', hr', rfl⟩ := Option.map_eq_some_iff.1 hw
    simp only [List.mem_cons, reduceCtorEq, false_or]
    exact ih hb' hr' hm
  | branch _ _ ih =>
    simp only [List.mem_cons, reduceCtorEq, false_or]
    exact ih hb hw hm
  | @seek c v es stop t next _ _ ih =>
    have hb' : Beside { c with pos := t } { o with writer := { o.writer with data := goTo 0 t o.writer.data } } :=
      ⟨hb.growable, length_goTo, hb.intervals⟩
    simp only [Program.write, seek_growable hb.growable] at hw
    simp only [List.mem_cons, reduceCtorEq, false_or]
    exact ih hb' hw hm
  | @push c v es stop relative n e next he _ _ ih =>
    have hb' : Beside { c with intervals := (c.pos, e) :: c.intervals } (o.pushInterval e) :=
      ⟨hb.growable, hb.pos, by rw [← hb.pos, ← hb.intervals]; rfl⟩
    simp only [Program.write, hb.pos, ← he] at hw
    simp only [List.mem_cons, reduceCtorEq, false_or]
    exact ih hb' hw hm
  | @pop c v es stop checked next e he _ _ ih =>
    cases hi : c.intervals with
    | nil =>
      rw [hi] at he
      have hnone : o.popInterval = none := by
        unfold Output.popInterval
        rw [hb.intervals, hi]
      simp [Program.write, hnone] at hw
    | cons w rest =>
      obtain ⟨s, e'⟩ := w
      rw [hi] at he
      have hpop := popInterval_of_cons hb.growable (hb.intervals.trans hi)
      simp only [Program.write, hpop] at hw
      obtain ⟨r', hr', rfl⟩ := Option.map_eq_some_iff.1 hw
      obtain ⟨hmark, hmarks⟩ := List.cons.inj hm
      rw [length_goTo] at hmark
      have hb' : Beside { c with intervals := c.intervals.tail } ⟨{ o.writer with data := goTo 0 e' o.writer.data }, rest⟩ :=
        ⟨hb.growable, length_goTo.trans hmark.symm, by rw [hi]; rfl⟩
      intro pos e'' hmem
      rcases List.mem_cons.1 hmem with heq | hmem
      · cases heq
        rw [he, hmark]
        rfl
      · exact ih hb' hr' hmarks pos e'' hmem

/-! ## Reading back -/

/-- A field that is in the buffer is read again. -/
theorem width_again {w : Width} {e e' : Nat} (hw : w.of ((input.take e).drop pos) = some bs.length)
    (hbs : Shows input (pos, bs)) (hdata : Shows data (pos, bs)) (hend : pos + bs.length ≤ e' ∨ bs = []) :
    w.of ((data.take e').drop pos) = some bs.length := by
  obtain ⟨hle, hstable⟩ := w.stable _ _ ((data.take e').drop (pos + bs.length)) hw
  rw [List.length_drop, List.length_take] at hle
  have htake : ((input.take e).drop pos).take bs.length = bs := by
    rw [List.drop_take, List.take_take, Nat.min_eq_left (by omega)]
    exact hbs
  rw [htake] at hstable
  have hsplit : (data.take e').drop pos = bs ++ (data.take e').drop (pos + bs.length) := by
    have hfront : ((data.take e').drop pos).take bs.length = bs := by
      rcases hend with hend | rfl
      · rw [List.drop_take, List.take_take, Nat.min_eq_left (by omega)]
        exact hdata
      · rfl
    rw [← List.drop_drop]
    conv_lhs => rw [← List.take_append_drop bs.length ((data.take e').drop pos), hfront]
  rw [hsplit]
  exact hstable

/-- The read is the same on a buffer that shows the fields and is long enough. -/
theorem Reads.again (h : Reads input p c v es stop) (hshows : ∀ q ∈ fields es, Shows data q)
    (hsought : ∀ t, .sought t ∈ es → t ≤ data.length) (hopened : ∀ s e, .opened s e ∈ es → e ≤ data.length)
    (hdecided : ∀ look n, .decided look n ∈ es → look data = some n) : Reads data p c v es stop := by
  induction h with
  | done => exact .done
  | @field c v es stop w next bs hw hbs _ ih =>
    have hdata := hshows (c.pos, bs) List.mem_cons_self
    refine .field (width_again hw hbs hdata ?_) hdata
      (ih (fun q hq => hshows q (List.mem_cons_of_mem _ hq)) (fun t ht => hsought t (List.mem_cons_of_mem _ ht))
        (fun s e he => hopened s e (List.mem_cons_of_mem _ he)) fun l n hl => hdecided l n (List.mem_cons_of_mem _ hl))
    cases bs with
    | nil => exact .inr rfl
    | cons b bs =>
      left
      obtain ⟨pos, intervals⟩ := c
      cases intervals with
      | nil =>
        have hlast := shows_iff.1 hdata bs.length _ (List.getElem?_eq_getElem (by simp))
        have hlt : pos + bs.length < data.length := (List.getElem?_eq_some_iff.1 hlast).1
        exact hlt
      | cons w' rest =>
        obtain ⟨hle, -⟩ := w.stable _ _ [] hw
        rw [List.length_drop, List.length_take] at hle
        have heq : Cursor.effectiveEnd ⟨pos, w' :: rest⟩ input = Cursor.effectiveEnd ⟨pos, w' :: rest⟩ data := rfl
        rw [← heq]
        rw [List.length_cons] at hle ⊢
        omega
  | branch hl _ ih =>
    exact .branch (hdecided _ _ List.mem_cons_self) (ih hshows (fun t ht => hsought t (List.mem_cons_of_mem _ ht))
      (fun s e he => hopened s e (List.mem_cons_of_mem _ he)) fun l n hl => hdecided l n (List.mem_cons_of_mem _ hl))
  | seek _ _ ih =>
    exact .seek (hsought _ List.mem_cons_self) (ih hshows (fun t ht => hsought t (List.mem_cons_of_mem _ ht))
      (fun s e he => hopened s e (List.mem_cons_of_mem _ he)) fun l n hl => hdecided l n (List.mem_cons_of_mem _ hl))
  | @push c v es stop relative n e next he hin _ ih =>
    refine .push he ⟨hin.1, hin.2.1, ?_⟩ (ih hshows (fun t ht => hsought t (List.mem_cons_of_mem _ ht))
      (fun s e he => hopened s e (List.mem_cons_of_mem _ he)) fun l n hl => hdecided l n (List.mem_cons_of_mem _ hl))
    obtain ⟨pos, intervals⟩ := c
    cases intervals with
    | nil => exact hopened pos e List.mem_cons_self
    | cons w rest => exact hin.2.2
  | pop he hc _ ih =>
    exact .pop he hc (ih hshows (fun t ht => hsought t (List.mem_cons_of_mem _ ht))
      (fun s e he => hopened s e (List.mem_cons_of_mem _ he)) fun l n hl => hdecided l n (List.mem_cons_of_mem _ hl))

theorem beside_init : Beside ⟨0, []⟩ Output.init := ⟨rfl, rfl, rfl⟩

theorem shows_of_picture (hp : Picture 0 (fields es) data) : ∀ q ∈ fields es, Shows data q := fun q hq =>
  shows_iff.2 (hp.written q hq)

end

/-! ## A window, and a byte after it -/

/-- A byte under `@[start, stop]`, then a byte. -/
def placed (start stop : Nat) : Program :=
  .seek start (.pushInterval false stop (.field (.fixed 1) fun _ => .popInterval false (.field (.fixed 1) fun _ => .done)))

end Bbq.Windows
