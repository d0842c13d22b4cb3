import Bbq.Lib.Settle
import Bbq.Zcow.InPlace

/-!
# The size measured and the bytes emitted

`emitted_size` is `emit_node` on a sink without a buffer (`backends/cpp/runtime/CaptureCow.h:335-349, 394-499`).
Here both are the source's loop, on one `OutSink` with or without a buffer:

* The encoders of varints push their bytes into whatever they are given.
* A span is read from memory as the source reads it: as many bytes as it is long, wherever it ends.
* `emits` is what a node comes to as a list. The loop ends for every tree, and any sink that carries the bytes it is
  given has taken `emits` then (`loop_emits`).
* `emitNode_emits`: the recursion of `Bbq.Zcow.Emit` emits the same where spans lie in the source.
* **`size_is_length`**: what is measured is the length of what is emitted, and measuring throws just when emitting does.
-/

namespace Bbq.Zcow

open Bbq.Lib

/-! ## The sink -/

/-- `encode_uleb128`, for any `Out`. -/
def encodeUleb128Into {ω : Type} (push : ω → UInt8 → ω) (out : ω) (v : UInt64) : ω :=
  let b := (v &&& 0x7f).toUInt8
  if v >>> 7 ≠ 0 then encodeUleb128Into push (push out (b ||| 0x80)) (v >>> 7) else push out b
termination_by v.toNat
decreasing_by exact Leb128.shiftRight_lt ‹_›

/-- `encode_sleb128`, for any `Out`. -/
def encodeSleb128Into {ω : Type} (push : ω → UInt8 → ω) (out : ω) (v : Int64) : ω :=
  let b := Leb128.lowGroup v
  let done := Leb128.signEnds (v >>> 7) b
  if done = true then push out b else encodeSleb128Into push (push out (b ||| 0x80)) (v >>> 7)
termination_by v.toInt.natAbs
decreasing_by exact Leb128.sar_lt ‹_›

/-- `sink`, with a buffer or none. -/
structure OutSink where
  out : Option (List UInt8)
  n : Nat
  deriving DecidableEq, Repr

namespace OutSink

/-- `sink(o)`. -/
def ofBuffer (o : Option (List UInt8)) : OutSink := ⟨o, (o.map List.length).getD 0⟩

def raw (s : OutSink) (p : List UInt8) : OutSink := { out := s.out.map (· ++ p), n := s.n + p.length }

def fixed (s : OutSink) (w : Nat) (c : Cell) : OutSink :=
  match s.out with
  | none => { s with n := s.n + w }
  | some bs => { out := some (bs ++ fixedLeaf w c), n := s.n + w }

/-- The counting face of the encoders. -/
def pushBack (s : OutSink) (_ : UInt8) : OutSink := { s with n := s.n + 1 }

def uleb (s : OutSink) (v : UInt64) : OutSink :=
  match s.out with
  | some bs =>
    let bs' := encodeUleb128Into (fun o b => o ++ [b]) bs v
    { out := some bs', n := s.n + (bs'.length - bs.length) }
  | none => encodeUleb128Into pushBack s v

def sleb (s : OutSink) (v : Int64) : OutSink :=
  match s.out with
  | some bs =>
    let bs' := encodeSleb128Into (fun o b => o ++ [b]) bs v
    { out := some bs', n := s.n + (bs'.length - bs.length) }
  | none => encodeSleb128Into pushBack s v

/-- What `emit_node` does with a sink. -/
def sink : Sink OutSink := ⟨raw, fixed, uleb, sleb⟩

end OutSink

/-! ## The loop -/

/-- `source::buf`: null, or a pointer to memory. -/
abbrev Memory := Option (Nat → UInt8)

/-- The bytes that `raw` takes from `src.buf + start` on. -/
def readAt (buf : Nat → UInt8) (start len : Nat) : List UInt8 := (List.range len).map fun i => buf (start + i)

/-- `Frame` of `emit_node`. -/
structure EmitFrame where
  n : Node
  path : String

/-- The frames for children from the `i`-th on, as they are popped. -/
def childFrames (path : String) (i : Nat) : List Node → List EmitFrame
  | [] => []
  | n :: ns => ⟨n, pathOf path i n.cell.name⟩ :: childFrames path (i + 1) ns

/-- The error for a leaf whose type has no width. -/
def noWidth (path : String) : Thrown :=
  .typeError ("zcow emit: '" ++ (if path = "" then "<root>" else path) ++ "' has no width for its type")

section Loop

variable {σ : Type} (k : Sink σ) (buf : Memory)

/-- One turn of the loop of `emit_node`. -/
def emitTurn : σ × List EmitFrame → Option ((σ × List EmitFrame) ⊕ Except Thrown σ)
  | (out, []) => some (.inr (.ok out))
  | (out, ⟨.mk c kids, path⟩ :: pending) =>
    if c.parsed then
      match buf with
      | some p =>
        if c.startOffset < c.endOffset then
          some (.inl (k.raw out (readAt p c.startOffset (c.endOffset - c.startOffset)), pending))
        else some (.inl (out, pending))
      | none => some (.inl (out, pending))
    else if c.type = .computed then
      match c.enc with
      | .uleb => some (.inl (k.uleb out (Int64.ofInt c.ival).toUInt64, pending))
      | .sleb => some (.inl (k.sleb out (.ofInt c.ival), pending))
      | .fixed => some (.inl (out, pending))
    else if c.type.isContainer then
      if c.bval ≠ [] then some (.inl (k.raw out c.bval, pending))
      else some (.inl (out, childFrames path 0 kids ++ pending))
    else if c.type = .bytes ∨ c.type = .string then some (.inl (k.raw out c.bval, pending))
    else
      match c.enc with
      | .uleb => some (.inl (k.uleb out (Int64.ofInt c.ival).toUInt64, pending))
      | .sleb => some (.inl (k.sleb out (.ofInt c.ival), pending))
      | .fixed =>
        if emitWidth c = 0 then some (.inr (.error (noWidth path)))
        else some (.inl (k.fixed out (emitWidth c) c, pending))

/-- `emit_node`, on a sink. -/
def emitNodeLoop (n : Node) (path : String) (out : σ) (fuel : Nat) : Option (Except Thrown σ) :=
  loop (emitTurn k buf) fuel (out, [⟨n, path⟩])

end Loop

/-- `emit_node`, on a vector: what it holds then. -/
def emitNodeTo (buf : Memory) (n : Node) (path : String) (out : List UInt8) (fuel : Nat) :
    Option (Except Thrown (List UInt8)) :=
  (emitNodeLoop OutSink.sink buf n path (.ofBuffer (some out)) fuel).map fun r => r.map fun s => s.out.getD []

/-- `emitted_size`. -/
def emittedSizeLoop (buf : Memory) (n : Node) (fuel : Nat) : Option (Except Thrown Nat) :=
  (emitNodeLoop OutSink.sink buf n "" (.ofBuffer none) fuel).map fun r => r.map OutSink.n

/-- The window of `settle_derived`: the sizes of the children behind a field, added up. -/
def windowLoop (buf : Memory) : List Node → Nat → Option (Except Thrown Nat)
  | [], _ => some (.ok 0)
  | n :: ns, fuel =>
    (emittedSizeLoop buf n fuel).bind fun
      | .error e => some (.error e)
      | .ok size => (windowLoop buf ns fuel).map fun r => r.map (size + ·)

/-! ## What a node emits -/

/-- The bytes of a varint; none of a value that is not one. -/
def varint (c : Cell) : List UInt8 :=
  match c.enc with
  | .uleb => Leb128.Cpp.encodeUleb128 (Int64.ofInt c.ival).toUInt64
  | .sleb => Leb128.Cpp.encodeSleb128 (.ofInt c.ival)
  | .fixed => []

mutual

def emits (buf : Memory) (path : String) : Node → Except Thrown (List UInt8)
  | .mk c kids =>
    if c.parsed then .ok ((buf.map fun p => readAt p c.startOffset (c.endOffset - c.startOffset)).getD [])
    else if c.type = .computed then .ok (varint c)
    else if c.type.isContainer then if c.bval ≠ [] then .ok c.bval else emitsAll buf path 0 kids
    else if c.type = .bytes ∨ c.type = .string then .ok c.bval
    else if c.enc ≠ .fixed then .ok (varint c)
    else if emitWidth c = 0 then .error (noWidth path)
    else .ok (fixedLeaf (emitWidth c) c)

def emitsAll (buf : Memory) (path : String) (i : Nat) : List Node → Except Thrown (List UInt8)
  | [] => .ok []
  | n :: ns =>
    match emits buf (pathOf path i n.cell.name) n with
    | .error e => .error e
    | .ok bs => (emitsAll buf path (i + 1) ns).map (bs ++ ·)

end

/-! ## Sinks that carry bytes -/

/-- A sink that takes varints, too, for their bytes. -/
structure Sink.Carries {σ : Type} (k : Sink σ) (add : σ → List UInt8 → σ) : Prop extends k.Appends add where
  uleb : ∀ out v, k.uleb out v = add out (Leb128.Cpp.encodeUleb128 v)
  sleb : ∀ out v, k.sleb out v = add out (Leb128.Cpp.encodeSleb128 v)

theorem encodeUleb128Into_eq {ω : Type} (push : ω → UInt8 → ω) (out : ω) (v : UInt64) :
    encodeUleb128Into push out v = (Leb128.Cpp.encodeUleb128 v).foldl push out := by
  induction out, v using encodeUleb128Into.induct push with
  | case1 out v b h ih => rw [encodeUleb128Into, Leb128.Cpp.encodeUleb128, if_pos h, if_pos h, List.foldl_cons, ih]
  | case2 out v h => rw [encodeUleb128Into, Leb128.Cpp.encodeUleb128, if_neg h, if_neg h, List.foldl_cons, List.foldl_nil]

theorem encodeSleb128Into_eq {ω : Type} (push : ω → UInt8 → ω) (out : ω) (v : Int64) :
    encodeSleb128Into push out v = (Leb128.Cpp.encodeSleb128 v).foldl push out := by
  induction out, v using encodeSleb128Into.induct push with
  | case1 out v b done h => rw [encodeSleb128Into, Leb128.Cpp.encodeSleb128, if_pos h, if_pos h, List.foldl_cons, List.foldl_nil]
  | case2 out v b done h ih => rw [encodeSleb128Into, Leb128.Cpp.encodeSleb128, if_neg h, if_neg h, List.foldl_cons, ih]

theorem foldl_collect (bs out : List UInt8) : bs.foldl (fun o b => o ++ [b]) out = out ++ bs := by
  induction bs generalizing out with
  | nil => exact (List.append_nil out).symm
  | cons b bs ih => rw [List.foldl_cons, ih, List.append_assoc, List.singleton_append]

theorem foldl_count (bs : List UInt8) (s : OutSink) : bs.foldl OutSink.pushBack s = { s with n := s.n + bs.length } := by
  induction bs generalizing s with
  | nil => rfl
  | cons b bs ih =>
    rw [List.foldl_cons, ih, OutSink.pushBack, List.length_cons]
    simp only [OutSink.mk.injEq, true_and]
    omega

/-- A varint goes the way of raw bytes, into a buffer or not. -/
theorem OutSink.push_eq (s : OutSink) (bs : List UInt8) :
    (match s.out with
      | some o => ({ out := some (bs.foldl (fun o b => o ++ [b]) o)
                     n := s.n + ((bs.foldl (fun o b => o ++ [b]) o).length - o.length) } : OutSink)
      | none => bs.foldl OutSink.pushBack s) = s.raw bs := by
  obtain ⟨out, n⟩ := s
  cases out with
  | none =>
    dsimp only
    rw [foldl_count]
    rfl
  | some o =>
    dsimp only [raw, Option.map_some]
    rw [foldl_collect, List.length_append, Nat.add_sub_cancel_left]

theorem OutSink.carries : OutSink.sink.Carries OutSink.raw where
  raw _ _ := rfl
  fixed s w c := by
    obtain ⟨out, n⟩ := s
    cases out with
    | none => simp only [sink, fixed, raw, Option.map_none, length_fixedLeaf]
    | some o => simp only [sink, fixed, raw, Option.map_some, length_fixedLeaf]
  nil s := by
    obtain ⟨out, n⟩ := s
    cases out with
    | none => rfl
    | some o => simp only [raw, Option.map_some, List.append_nil, List.length_nil, Nat.add_zero]
  append s xs ys := by
    obtain ⟨out, n⟩ := s
    cases out with
    | none => simp only [raw, Option.map_none, List.length_append, Nat.add_assoc]
    | some o => simp only [raw, Option.map_some, List.append_assoc, List.length_append, Nat.add_assoc]
  uleb s v := by
    change s.uleb v = _
    rw [← OutSink.push_eq, OutSink.uleb]
    simp only [encodeUleb128Into_eq]
  sleb s v := by
    change s.sleb v = _
    rw [← OutSink.push_eq, OutSink.sleb]
    simp only [encodeSleb128Into_eq]

theorem counting_carries : counting.Carries fun n bs => n + bs.length where
  toAppends := counting_appends
  uleb _ _ := rfl
  sleb _ _ := rfl

/-! ## The loop emits the tree -/

theorem length_readAt (p : Nat → UInt8) (start len : Nat) : (readAt p start len).length = len := by
  rw [readAt, List.length_map, List.length_range]

mutual

/-- How often the loop comes to the node or to one under it. -/
def turnsOf : Node → Nat
  | .mk c kids => if c.parsed = false ∧ c.type.isContainer ∧ c.bval = [] then turnsAll kids + 1 else 1

def turnsAll : List Node → Nat
  | [] => 0
  | n :: ns => turnsOf n + turnsAll ns

end

section Emits

variable {σ : Type} {k : Sink σ} {add : σ → List UInt8 → σ} (hk : k.Carries add) (buf : Memory)
include hk

/-- **One turn**: a container without bytes of its own makes room for its children, and any other node is emitted. -/
theorem emitTurn_spec (c : Cell) (kids : List Node) (path : String) (out : σ) (pending : List EmitFrame) :
    emitTurn k buf (out, ⟨.mk c kids, path⟩ :: pending) =
      if c.parsed = false ∧ c.type.isContainer = true ∧ c.bval = [] then
        some (.inl (out, childFrames path 0 kids ++ pending))
      else
        match emits buf path (.mk c kids) with
        | .ok bs => some (.inl (add out bs, pending))
        | .error e => some (.inr (.error e)) := by
  unfold emitTurn emits
  dsimp only
  cases hp : c.parsed with
  | true =>
    rw [if_pos rfl, if_pos rfl, if_neg fun h => Bool.noConfusion h.1]
    cases buf with
    | none => simp only [Option.map_none, Option.getD_none, hk.nil]
    | some p =>
      by_cases hspan : c.startOffset < c.endOffset
      · simp only [if_pos hspan, hk.raw, Option.map_some, Option.getD_some]
      · have hempty : readAt p c.startOffset (c.endOffset - c.startOffset) = [] := by
          rw [Nat.sub_eq_zero_of_le (Nat.le_of_not_lt hspan)]
          rfl
        simp only [if_neg hspan, Option.map_some, Option.getD_some, hempty, hk.nil]
  | false =>
    rw [if_neg Bool.false_ne_true, if_neg Bool.false_ne_true]
    by_cases hcomp : c.type = .computed
    · have hcont : ¬ c.type.isContainer = true := by
        rw [hcomp]
        exact Bool.false_ne_true
      rw [if_pos hcomp, if_pos hcomp, if_neg fun h => hcont h.2.1, varint]
      cases c.enc with
      | fixed => simp only [hk.nil]
      | uleb => simp only [hk.uleb]
      | sleb => simp only [hk.sleb]
    · rw [if_neg hcomp, if_neg hcomp]
      by_cases hcont : c.type.isContainer = true
      · rw [if_pos hcont, if_pos hcont]
        by_cases hb : c.bval = []
        · rw [if_neg (not_not.2 hb), if_pos ⟨rfl, hcont, hb⟩]
        · rw [if_pos hb, if_pos hb, if_neg fun h => hb h.2.2, hk.raw]
      · have hno : ¬(false = false ∧ c.type.isContainer = true ∧ c.bval = []) := fun h => hcont h.2.1
        rw [if_neg hcont, if_neg hcont, if_neg hno]
        by_cases hraw : c.type = .bytes ∨ c.type = .string
        · rw [if_pos hraw, if_pos hraw, hk.raw]
        · rw [if_neg hraw, if_neg hraw, varint]
          cases c.enc with
          | uleb => simp only [ne_eq, reduceCtorEq, not_false_iff, if_true, hk.uleb]
          | sleb => simp only [ne_eq, reduceCtorEq, not_false_iff, if_true, hk.sleb]
          | fixed =>
            by_cases hw : emitWidth c = 0
            · simp only [ne_eq, not_true, if_false, if_pos hw]
            · simp only [ne_eq, not_true, if_false, if_neg hw, hk.fixed]

/-- How the loop goes on behind a node that comes to `r`. -/
def afterwards (k : Sink σ) (add : σ → List UInt8 → σ) (buf : Memory) (out : σ) (pending : List EmitFrame) (fuel : Nat) :
    Except Thrown (List UInt8) → Option (Except Thrown σ)
  | .ok bs => loop (emitTurn k buf) fuel (add out bs, pending)
  | .error e => some (.error e)

mutual

/-- **The loop takes a node off its stack once it has emitted it.** -/
theorem loop_emits (n : Node) (path : String) (out : σ) (pending : List EmitFrame) (fuel : Nat) :
    loop (emitTurn k buf) (turnsOf n + fuel) (out, ⟨n, path⟩ :: pending) =
      afterwards k add buf out pending fuel (emits buf path n) := by
  cases n with
  | mk c kids =>
    unfold turnsOf
    by_cases hkids : c.parsed = false ∧ c.type.isContainer = true ∧ c.bval = []
    · obtain ⟨hp, hcont, hb⟩ := hkids
      have hcomp : c.type ≠ .computed := fun hn => by rw [hn] at hcont; cases hcont
      have hemits : emits buf path (.mk c kids) = emitsAll buf path 0 kids := by
        rw [emits, hp, if_neg Bool.false_ne_true, if_neg hcomp, if_pos hcont, if_neg (not_not.2 hb)]
      rw [if_pos ⟨hp, hcont, hb⟩, hemits, ← loop_emitsAll kids path 0 out pending fuel, Nat.add_right_comm, loop,
        emitTurn_spec hk, if_pos ⟨hp, hcont, hb⟩, Option.bind_some]
    · rw [if_neg hkids, Nat.add_comm, loop, emitTurn_spec hk, if_neg hkids]
      cases emits buf path (.mk c kids) with
      | error e => rfl
      | ok bs => rfl

theorem loop_emitsAll (ns : List Node) (path : String) (i : Nat) (out : σ) (pending : List EmitFrame) (fuel : Nat) :
    loop (emitTurn k buf) (turnsAll ns + fuel) (out, childFrames path i ns ++ pending) =
      afterwards k add buf out pending fuel (emitsAll buf path i ns) := by
  cases ns with
  | nil => rw [turnsAll, Nat.zero_add, childFrames, List.nil_append, emitsAll, afterwards, hk.nil]
  | cons n ns =>
    rw [turnsAll, Nat.add_assoc, childFrames, List.cons_append, loop_emits n, emitsAll]
    cases emits buf (pathOf path i n.cell.name) n with
    | error e => rfl
    | ok bs =>
      dsimp only [afterwards]
      rw [loop_emitsAll ns]
      cases emitsAll buf path (i + 1) ns with
      | error e => rfl
      | ok bs' =>
        dsimp only [Except.map, afterwards]
        rw [hk.append]

end

/-- **The loop ends for every tree.** -/
theorem emitNodeLoop_settles (n : Node) (path : String) (out : σ) :
    Settles (emitNodeLoop k buf n path out) ((emits buf path n).map (add out)) := by
  refine ⟨turnsOf n + 1, fun fuel hfuel => ?_⟩
  obtain ⟨rest, rfl⟩ : ∃ rest, fuel = turnsOf n + (rest + 1) := ⟨fuel - turnsOf n - 1, by omega⟩
  rw [emitNodeLoop, loop_emits hk]
  cases emits buf path n with
  | error e => rfl
  | ok bs => rfl

end Emits

/-! ## The recursion -/

/-- The source as memory. -/
def Source.memory (src : Source) : Memory := src.map fun bytes i => bytes.getD i 0

/-- A node whose span, where it is read, lies in the source. -/
def Within (src : Source) (n : Node) : Prop :=
  n.cell.parsed = true → n.cell.startOffset < n.cell.endOffset → n.cell.endOffset ≤ src.bytes.length

theorem readAt_eq {bytes : List UInt8} {start len : Nat} (h : start + len ≤ bytes.length) :
    readAt (fun i => bytes.getD i 0) start len = bytesAt bytes start len := by
  refine List.ext_getElem ?_ fun i hi hi' => ?_
  · rw [length_readAt, length_bytesAt h]
  · rw [length_readAt] at hi
    simp only [readAt, bytesAt, List.getElem_map, List.getElem_range, List.getElem_take, List.getElem_drop]
    rw [List.getD_eq_getElem _ _ (by omega)]

section Recursion

variable {σ : Type} {k : Sink σ} {add : σ → List UInt8 → σ} (hk : k.Carries add) {src : Source}
include hk

mutual

/-- **The recursion emits what the loop does**, where spans lie in the source. -/
theorem emitNode_emits (n : Node) (h : EveryEmitted (Within src) n) (path : String) (out : σ) :
    emitNode k src path out n = (emits src.memory path n).map (add out) := by
  cases n with
  | mk c kids =>
    unfold emitNode emits
    cases hp : c.parsed with
    | true =>
      rw [if_pos rfl, if_pos rfl]
      cases src with
      | none => exact (if_neg fun h => Bool.noConfusion h.1).trans (congrArg Except.ok (hk.nil out).symm)
      | some bytes =>
        by_cases hspan : c.startOffset < c.endOffset
        · have hin : c.startOffset + (c.endOffset - c.startOffset) ≤ bytes.length := by
            have := h.here hp hspan
            change c.endOffset ≤ bytes.length at this
            omega
          rw [if_pos ⟨rfl, hspan⟩, hk.raw, Source.memory, Option.map_some, Option.map_some, Option.getD_some,
            readAt_eq hin]
          rfl
        · have hempty : ∀ p, readAt p c.startOffset (c.endOffset - c.startOffset) = [] := fun p => by
            rw [Nat.sub_eq_zero_of_le (Nat.le_of_not_lt hspan)]
            rfl
          rw [if_neg fun h => hspan h.2, Source.memory, Option.map_some, Option.map_some, Option.getD_some, hempty]
          exact congrArg Except.ok (hk.nil out).symm
    | false =>
      rw [if_neg Bool.false_ne_true, if_neg Bool.false_ne_true]
      by_cases hcomp : c.type = .computed
      · rw [if_pos hcomp, if_pos hcomp, varint]
        cases c.enc with
        | fixed => exact congrArg Except.ok (hk.nil out).symm
        | uleb => exact congrArg Except.ok (hk.uleb out _)
        | sleb => exact congrArg Except.ok (hk.sleb out _)
      · rw [if_neg hcomp, if_neg hcomp]
        by_cases hcont : c.type.isContainer = true
        · rw [if_pos hcont, if_pos hcont]
          by_cases hb : c.bval = []
          · rw [if_neg (not_not.2 hb), if_neg (not_not.2 hb)]
            exact emitNodes_emits kids (h.2 hp hcont hb) path 0 out
          · rw [if_pos hb, if_pos hb, hk.raw]
            rfl
        · rw [if_neg hcont, if_neg hcont]
          by_cases hraw : c.type = .bytes ∨ c.type = .string
          · rw [if_pos hraw, if_pos hraw, hk.raw]
            rfl
          · rw [if_neg hraw, if_neg hraw, varint]
            cases c.enc with
            | uleb => exact congrArg Except.ok (hk.uleb out _)
            | sleb => exact congrArg Except.ok (hk.sleb out _)
            | fixed =>
              rw [if_neg (not_not.2 rfl)]
              by_cases hw : emitWidth c = 0
              · rw [if_pos hw, if_pos hw]
                rfl
              · rw [if_neg hw, if_neg hw]
                exact congrArg Except.ok (hk.fixed out _ c)

theorem emitNodes_emits (ns : List Node) (h : EveryEmittedIn (Within src) ns) (path : String) (i : Nat) (out : σ) :
    emitNodes k src path i out ns = (emitsAll src.memory path i ns).map (add out) := by
  cases ns with
  | nil => exact congrArg Except.ok (hk.nil out).symm
  | cons n ns =>
    rw [emitNodes, emitsAll, emitNode_emits n h.1]
    cases emits src.memory (pathOf path i n.cell.name) n with
    | error e => rfl
    | ok bs =>
      change emitNodes k src path (i + 1) (add out bs) ns = _
      rw [emitNodes_emits ns h.2]
      cases emitsAll src.memory path (i + 1) ns with
      | error e => rfl
      | ok cs => exact congrArg Except.ok (hk.append out bs cs)

end

end Recursion

/-- The size measured by the recursion is the one the loop measures. -/
theorem emittedSize_loop {src : Source} {n : Node} (h : EveryEmitted (Within src) n) :
    emittedSize src n = (emits src.memory "" n).map List.length := by
  rw [emittedSize, emitNode_emits counting_carries n h]
  cases emits src.memory "" n with
  | error e => rfl
  | ok bs => exact congrArg Except.ok (Nat.zero_add _)

/-! ## The path is for error messages only -/

mutual

theorem emits_path (buf : Memory) (path path' : String) (n : Node) :
    (emits buf path n).toOption = (emits buf path' n).toOption := by
  cases n with
  | mk c kids =>
    unfold emits
    split
    · rfl
    · split
      · rfl
      · split
        · split
          · rfl
          · exact emitsAll_path buf path path' 0 0 kids
        · split
          · rfl
          · split
            · rfl
            · split
              · rfl
              · rfl

theorem emitsAll_path (buf : Memory) (path path' : String) (i i' : Nat) (ns : List Node) :
    (emitsAll buf path i ns).toOption = (emitsAll buf path' i' ns).toOption := by
  cases ns with
  | nil => rfl
  | cons n ns =>
    have hfirst := emits_path buf (pathOf path i n.cell.name) (pathOf path' i' n.cell.name) n
    have hrest := emitsAll_path buf path path' (i + 1) (i' + 1) ns
    unfold emitsAll
    cases hn : emits buf (pathOf path i n.cell.name) n with
    | error e =>
      rw [hn] at hfirst
      cases hn' : emits buf (pathOf path' i' n.cell.name) n with
      | error e' => rfl
      | ok bs => rw [hn'] at hfirst; cases hfirst
    | ok bs =>
      rw [hn] at hfirst
      cases hn' : emits buf (pathOf path' i' n.cell.name) n with
      | error e' => rw [hn'] at hfirst; cases hfirst
      | ok bs' =>
        rw [hn'] at hfirst
        obtain rfl : bs = bs' := Option.some.inj hfirst
        dsimp only
        cases hns : emitsAll buf path (i + 1) ns with
        | error e =>
          rw [hns] at hrest
          cases hns' : emitsAll buf path' (i' + 1) ns with
          | error e' => rfl
          | ok cs => rw [hns'] at hrest; cases hrest
        | ok cs =>
          rw [hns] at hrest
          cases hns' : emitsAll buf path' (i' + 1) ns with
          | error e' => rw [hns'] at hrest; cases hrest
          | ok cs' =>
            rw [hns'] at hrest
            obtain rfl : cs = cs' := Option.some.inj hrest
            rfl

end

/-! ## Measuring -/

/-- A vector that began as `out` has grown by the size measured; or both threw. -/
def SameLength (out : List UInt8) : Except Thrown (List UInt8) → Except Thrown Nat → Prop
  | .ok out', .ok size => ∃ bytes, out' = out ++ bytes ∧ bytes.length = size
  | .error _, .error _ => True
  | _, _ => False

theorem emitNodeTo_settles (buf : Memory) (n : Node) (path : String) (out : List UInt8) :
    Settles (emitNodeTo buf n path out) ((emits buf path n).map (out ++ ·)) := by
  have hrun : Settles (emitNodeTo buf n path out)
      (((emits buf path n).map (OutSink.ofBuffer (some out)).raw).map fun s => s.out.getD []) :=
    (emitNodeLoop_settles OutSink.carries buf n path (.ofBuffer (some out))).map
      (Except.map fun s : OutSink => s.out.getD [])
  cases hn : emits buf path n with
  | error e =>
    rw [hn] at hrun
    exact hrun
  | ok bs =>
    rw [hn] at hrun
    exact hrun

theorem emittedSizeLoop_settles (buf : Memory) (n : Node) :
    Settles (emittedSizeLoop buf n) ((emits buf "" n).map List.length) := by
  have hrun : Settles (emittedSizeLoop buf n) (((emits buf "" n).map (OutSink.ofBuffer none).raw).map OutSink.n) :=
    (emitNodeLoop_settles OutSink.carries buf n "" (.ofBuffer none)).map fun r => r.map OutSink.n
  cases hn : emits buf "" n with
  | error e =>
    rw [hn] at hrun
    exact hrun
  | ok bs =>
    rw [hn] at hrun
    have hsize : (OutSink.ofBuffer none).n + bs.length = bs.length := Nat.zero_add _
    rw [Except.map, Except.map, OutSink.raw, hsize] at hrun
    exact hrun

/-- The window of `settle_derived` is as long as what its children emit one behind the other. -/
theorem windowLoop_settles (buf : Memory) (ns : List Node) :
    ∃ window, Settles (windowLoop buf ns) window ∧ ∀ path i,
      window.toOption = (emitsAll buf path i ns).toOption.map List.length := by
  induction ns with
  | nil => exact ⟨.ok 0, .const _, fun _ _ => rfl⟩
  | cons n ns ih =>
    obtain ⟨window, hwindow, hlength⟩ := ih
    have hsize := emittedSizeLoop_settles buf n
    have hpath := fun path i => emits_path buf "" (pathOf path i n.cell.name) n
    cases hn : emits buf "" n with
    | error e =>
      rw [hn] at hsize hpath
      refine ⟨.error e, hsize.bind (.const _), fun path i => ?_⟩
      rw [emitsAll]
      cases hn' : emits buf (pathOf path i n.cell.name) n with
      | error e' => rfl
      | ok bs =>
        have := hpath path i
        rw [hn'] at this
        cases this
    | ok bs =>
      rw [hn] at hsize hpath
      refine ⟨window.map (bs.length + ·), hsize.bind (hwindow.map fun r => r.map (bs.length + ·)), fun path i => ?_⟩
      have hrest := hlength path (i + 1)
      rw [emitsAll]
      cases hn' : emits buf (pathOf path i n.cell.name) n with
      | error e' =>
        have := hpath path i
        rw [hn'] at this
        cases this
      | ok bs' =>
        obtain rfl : bs = bs' := by
          have := hpath path i
          rw [hn'] at this
          exact Option.some.inj this
        dsimp only
        cases hns : emitsAll buf path (i + 1) ns with
        | error e =>
          rw [hns] at hrest
          cases window with
          | error e' => rfl
          | ok w => cases hrest
        | ok cs =>
          rw [hns] at hrest
          cases window with
          | error e' => cases hrest
          | ok w =>
            obtain rfl : w = cs.length := Option.some.inj hrest
            exact congrArg some List.length_append.symm

theorem emitsAll_append (buf : Memory) (path : String) (i : Nat) (ns ms : List Node) :
    emitsAll buf path i (ns ++ ms) =
      match emitsAll buf path i ns with
      | .error e => .error e
      | .ok bs => (emitsAll buf path (i + ns.length) ms).map (bs ++ ·) := by
  induction ns generalizing i with
  | nil =>
    rw [List.nil_append, emitsAll, List.length_nil, Nat.add_zero]
    dsimp only
    cases emitsAll buf path i ms with
    | error e => rfl
    | ok bs => rfl
  | cons n ns ih =>
    rw [List.cons_append, emitsAll, emitsAll, ih, List.length_cons]
    cases emits buf (pathOf path i n.cell.name) n with
    | error e => rfl
    | ok bs =>
      dsimp only
      cases emitsAll buf path (i + 1) ns with
      | error e => rfl
      | ok cs =>
        rw [Nat.add_right_comm, ← Nat.add_assoc]
        dsimp only [Except.map]
        cases emitsAll buf path (i + ns.length + 1) ms with
        | error e => rfl
        | ok ds =>
          dsimp only
          rw [List.append_assoc]

/-- A container that is emitted child by child. -/
structure Rebuilt (c : Cell) : Prop where
  changed : c.parsed = false
  container : c.type.isContainer = true
  unowned : c.bval = []

theorem Rebuilt.emits {c : Cell} (h : Rebuilt c) (buf : Memory) (path : String) (kids : List Node) :
    emits buf path (.mk c kids) = emitsAll buf path 0 kids := by
  have hcomp : c.type ≠ .computed := fun hn => by
    have hcont := h.container
    rw [hn] at hcont
    cases hcont
  rw [Zcow.emits, h.changed, if_neg Bool.false_ne_true, if_neg hcomp, if_pos h.container, if_neg (not_not.2 h.unowned)]

/-- **`emitted_size` is the length of `emit_node`**, for every tree, and the window that `settle_derived` measures is
what is emitted behind the field, whatever is written into the field in between. -/
theorem size_is_length (buf : Memory) :
    (∀ (n : Node) (path : String) (out : List UInt8), ∃ emitted size, Settles (emitNodeTo buf n path out) emitted ∧
      Settles (emittedSizeLoop buf n) size ∧ SameLength out emitted size) ∧
    ∀ (c : Cell) (before : List Node) (field : Node) (after : List Node) (path : String) (out emitted : List UInt8)
      (window : Nat), Rebuilt c → Settles (windowLoop buf after) (.ok window) →
      Settles (emitNodeTo buf (.mk c (before ++ field :: after)) path out) (.ok emitted) →
        ∃ front rest, Settles (emitNodeTo buf (.mk c (before ++ [field])) path out) (.ok front) ∧
          emitted = front ++ rest ∧ rest.length = window := by
  refine ⟨fun n path out => ⟨_, _, emitNodeTo_settles buf n path out, emittedSizeLoop_settles buf n, ?_⟩, ?_⟩
  · have hpath := emits_path buf path "" n
    cases hn : emits buf path n with
    | error e =>
      rw [hn] at hpath
      cases hn' : emits buf "" n with
      | error e' => trivial
      | ok bs => rw [hn'] at hpath; cases hpath
    | ok bs =>
      rw [hn] at hpath
      cases hn' : emits buf "" n with
      | error e => rw [hn'] at hpath; cases hpath
      | ok bs' =>
        rw [hn'] at hpath
        obtain rfl : bs = bs' := Option.some.inj hpath
        exact ⟨bs, rfl, rfl⟩
  · intro c before field after path out emitted window hc hwindow hrun
    obtain ⟨measured, hmeasured, hlength⟩ := windowLoop_settles buf after
    obtain rfl := hmeasured.unique hwindow
    have hall := hrun.unique (emitNodeTo_settles buf _ path out)
    have hfront := emitNodeTo_settles buf (.mk c (before ++ [field])) path out
    have hsplit : before ++ field :: after = (before ++ [field]) ++ after := by rw [List.append_assoc, List.singleton_append]
    rw [hc.emits, hsplit, emitsAll_append] at hall
    rw [hc.emits] at hfront
    have hrest := hlength path (0 + (before ++ [field]).length)
    cases hn : emitsAll buf path 0 (before ++ [field]) with
    | error e =>
      rw [hn] at hall
      cases hall
    | ok bs =>
      rw [hn] at hall hfront
      cases hns : emitsAll buf path (0 + (before ++ [field]).length) after with
      | error e =>
        rw [hns] at hrest
        cases hrest
      | ok cs =>
        rw [hns] at hall hrest
        refine ⟨out ++ bs, cs, hfront, ?_, (Option.some.inj hrest).symm⟩
        rw [Except.ok.inj hall, List.append_assoc]

/-- A byte that the document owns. -/
def ownedByte (v : Int) : Node := .mk { (default : Cell) with parsed := false, ival := v } []

/-- A struct that has changed. -/
def changedStruct : Cell := { (default : Cell) with type := .struct, parsed := false }

/-- A size field that was 0 when the byte behind it was measured, and is 1 when they are emitted. -/
theorem size_is_length_field : ∃ front rest, Settles (emitNodeTo none (.mk changedStruct [ownedByte 1]) "" []) (.ok front) ∧
    [1, 7] = front ++ rest ∧ rest.length = 1 := by
  have hwindow : Settles (windowLoop none [ownedByte 7]) (.ok 1) := by
    obtain ⟨window, hrun, hlength⟩ := windowLoop_settles none [ownedByte 7]
    have hone := hlength "" 0
    cases window with
    | error e => cases hone
    | ok w =>
      obtain rfl : w = 1 := Option.some.inj hone
      exact hrun
  have hrun : Settles (emitNodeTo none (.mk changedStruct [ownedByte 1, ownedByte 7]) "" []) (.ok [1, 7]) :=
    emitNodeTo_settles none (.mk changedStruct [ownedByte 1, ownedByte 7]) "" []
  exact (size_is_length none).2 changedStruct [] (ownedByte 1) [ownedByte 7] "" [] [1, 7] 1 ⟨rfl, rfl, rfl⟩ hwindow hrun

end Bbq.Zcow
