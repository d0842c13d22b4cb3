import Mathlib.Logic.Function.Basic
import Bbq.Leb128.Write

/-!
# The bytecode emitter

`bbq::Emit` (`opgen/runtime/bbq_emit.h`): a backend appends opcodes, operands and branches to labels it names by keys,
and `finalize` runs four peephole passes over the bytes until none changes anything, sixteen rounds at most. Then the
targets are written into the placeholders, each five bytes long.

* A position that is looked up in an index is looked up in the index as it was built, not as the code is by then.
* `none` is the exception of `labels_.at` on a key that has no label.
* `code[pc]` is read with `getD` where the source reads it with no check before.

Sizes are unbounded here, `int` counters among them.
-/

namespace Bbq.Bytecode

/-- `Peephole`: what the passes know of the opcodes. -/
structure Peephole where
  gotoOp : UInt8
  /-- 256 entries, 0 for none. -/
  invert : Option (UInt8 → UInt8) := none
  isTerminator : Option (UInt8 → Bool) := none

/-- `Emit::Fixup`: a branch. -/
structure Fixup (κ : Type) where
  /-- Where its operand is. -/
  pos : Nat
  target : κ
  dead : Bool
  deriving DecidableEq, Repr

structure Emit (κ : Type) where
  code : List UInt8
  fixups : List (Fixup κ)
  labels : κ → Option Nat

def branchWidth : Nat := 5

def roundLimit : Nat := 16

namespace Emit

variable {κ : Type}

/-! ## Emission -/

def empty : Emit κ := ⟨[], [], fun _ => none⟩

def op (e : Emit κ) (o : UInt8) : Emit κ := { e with code := e.code ++ [o] }

def u8 (e : Emit κ) (v : UInt8) : Emit κ := { e with code := e.code ++ [v] }

/-- The loop is that of `encode_sleb128`. -/
def sleb (e : Emit κ) (v : Int64) : Emit κ := { e with code := e.code ++ Leb128.Cpp.encodeSleb128 v }

def label [DecidableEq κ] (e : Emit κ) (key : κ) : Emit κ :=
  { e with labels := Function.update e.labels key (some e.code.length) }

def branch (e : Emit κ) (o : UInt8) (target : κ) : Emit κ :=
  let code := e.code ++ [o]
  { e with
    code := code ++ List.replicate branchWidth 0x80
    fixups := e.fixups ++ [⟨code.length, target, false⟩] }

/-! ## Helpers of the passes -/

/-- `fixup_index`: the live branch whose operand is at a position. -/
def fixupIndex (e : Emit κ) (pos : Nat) : Option Nat :=
  ((List.range e.fixups.length).filter fun i => e.fixups[i]?.any fun f => !f.dead && f.pos == pos).getLast?

/-- `remove_bytes`. -/
def removeBytes (e : Emit κ) (at_ n : Nat) : Emit κ where
  code := e.code.take at_ ++ e.code.drop (at_ + n)
  labels := fun key => (e.labels key).map fun pc => if at_ < pc then pc - n else pc
  fixups := e.fixups.map fun f => if !f.dead && decide (at_ < f.pos) then { f with pos := f.pos - n } else f

/-- `fixups_[i].dead = true`. -/
def kill (e : Emit κ) (i : Nat) : Emit κ := { e with fixups := e.fixups.modify i fun f => { f with dead := true } }

section

variable [DecidableEq κ]

/-! ## Branch chaining -/

/-- The loop over `hops`: from `nt` on. -/
def chase (e : Emit κ) (idx : Nat → Option Nat) (gotoOp : UInt8) : Nat → κ → κ
  | 0, nt => nt
  | hops + 1, nt =>
    match e.labels nt with
    | none => nt
    | some tpc =>
      if e.code[tpc]? ≠ some gotoOp then nt
      else
        match (idx (tpc + 1)).bind fun i => e.fixups[i]? with
        | none => nt
        | some g => if g.target = nt then nt else chase e idx gotoOp hops g.target

/-- One turn of `pass_thread`. -/
def threadTurn (idx : Nat → Option Nat) (gotoOp : UInt8) (st : Emit κ × Bool) (i : Nat) : Emit κ × Bool :=
  match st.1.fixups[i]? with
  | none => st
  | some f =>
    if f.dead then st
    else
      let nt := chase st.1 idx gotoOp 8 f.target
      if nt ≠ f.target then ({ st.1 with fixups := st.1.fixups.set i { f with target := nt } }, true) else st

def passThread (gotoOp : UInt8) (e : Emit κ) : Emit κ × Bool :=
  (List.range e.fixups.length).foldl (threadTurn e.fixupIndex gotoOp) (e, false)

/-! ## Tail-jump merging -/

/-- One turn of `pass_tail_jump`. -/
def tailJumpTurn (gotoOp : UInt8) (isTerm : UInt8 → Bool) (st : Emit κ × Bool) (i : Nat) : Option (Emit κ × Bool) :=
  match st.1.fixups[i]? with
  | none => some st
  | some f =>
    if f.dead then some st
    else
      let opPc := f.pos - 1
      if st.1.code.getD opPc 0 ≠ gotoOp then some st
      else do
        let tpc ← st.1.labels f.target
        match st.1.code[tpc]? with
        | none => some st
        | some t =>
          if !isTerm t then some st
          else some ((({ st.1 with code := st.1.code.set opPc t }).removeBytes f.pos branchWidth).kill i, true)

def passTailJump (gotoOp : UInt8) (isTerm : UInt8 → Bool) (e : Emit κ) : Option (Emit κ × Bool) :=
  (List.range e.fixups.length).reverse.foldlM (tailJumpTurn gotoOp isTerm) (e, false)

/-! ## Fallthrough elision -/

/-- One turn of `pass_fallthrough`. -/
def fallthroughTurn (gotoOp : UInt8) (st : Emit κ × Bool) (i : Nat) : Option (Emit κ × Bool) :=
  match st.1.fixups[i]? with
  | none => some st
  | some f =>
    if f.dead then some st
    else
      let opPc := f.pos - 1
      if st.1.code.getD opPc 0 ≠ gotoOp then some st
      else do
        let tpc ← st.1.labels f.target
        if tpc ≠ f.pos + branchWidth then some st
        else some ((st.1.removeBytes opPc (1 + branchWidth)).kill i, true)

def passFallthrough (gotoOp : UInt8) (e : Emit κ) : Option (Emit κ × Bool) :=
  (List.range e.fixups.length).reverse.foldlM (fallthroughTurn gotoOp) (e, false)

/-! ## Branch reversal -/

/-- What `pass_invert` keeps, the index among it. -/
structure Inverting (κ : Type) where
  emit : Emit κ
  idx : Nat → Option Nat
  changed : Bool

/-- One turn of `pass_invert`. -/
def invertTurn (gotoOp : UInt8) (invert : UInt8 → UInt8) (st : Inverting κ) (i : Nat) : Option (Inverting κ) :=
  let e := st.emit
  match e.fixups[i]? with
  | none => some st
  | some f =>
    if f.dead then some st
    else
      let condPc := f.pos - 1
      let condOp := e.code.getD condPc 0
      if invert condOp = 0 then some st
      else
        let gotoOpPc := f.pos + branchWidth
        if e.code[gotoOpPc]? ≠ some gotoOp then some st
        else
          match st.idx (gotoOpPc + 1) with
          | none => some st
          | some j =>
            match e.fixups[j]? with
            | none => some st
            | some gf => do
              let tpc ← e.labels f.target
              if tpc ≠ gotoOpPc + 1 + branchWidth then some st
              else
                let e := { e with
                  code := e.code.set condPc (invert condOp)
                  fixups := e.fixups.set i { f with target := gf.target } }
                let e := (e.removeBytes gotoOpPc (1 + branchWidth)).kill j
                some ⟨e, e.fixupIndex, true⟩

def passInvert (gotoOp : UInt8) (invert : UInt8 → UInt8) (e : Emit κ) : Option (Emit κ × Bool) := do
  let st ← (List.range e.fixups.length).foldlM (invertTurn gotoOp invert) ⟨e, e.fixupIndex, false⟩
  some (st.emit, st.changed)

/-! ## The targets -/

/-- One of the bytes of a padded target. -/
def targetByte (v i : Nat) : UInt8 :=
  let b := ((v >>> (7 * i)) &&& 0x7f).toUInt8
  if i < branchWidth - 1 then b ||| 0x80 else b

/-- One turn of `backpatch`. -/
def backpatchTurn (e : Emit κ) (f : Fixup κ) : Option (Emit κ) :=
  if f.dead then some e
  else do
    let v ← e.labels f.target
    some { e with
      code := (List.range branchWidth).foldl (fun code i => code.set (f.pos + i) (targetByte v i)) e.code }

def backpatch (e : Emit κ) : Option (Emit κ) := e.fixups.foldlM backpatchTurn e

def backpatchOnly (e : Emit κ) : Option (Emit κ) := e.backpatch

/-! ## All of it -/

/-- `pass_tail_jump`, if there is a predicate. -/
def tailJumpIf (cfg : Peephole) (e : Emit κ) : Option (Emit κ × Bool) :=
  match cfg.isTerminator with
  | none => some (e, false)
  | some isTerm => passTailJump cfg.gotoOp isTerm e

/-- `pass_invert`, if there is a table. -/
def invertIf (cfg : Peephole) (e : Emit κ) : Option (Emit κ × Bool) :=
  match cfg.invert with
  | none => some (e, false)
  | some invert => passInvert cfg.gotoOp invert e

/-- A round of the passes, and if it changed anything. -/
def round (cfg : Peephole) (e : Emit κ) : Option (Emit κ × Bool) := do
  let (e, threaded) := passThread cfg.gotoOp e
  let (e, merged) ← tailJumpIf cfg e
  let (e, elided) ← passFallthrough cfg.gotoOp e
  let (e, reversed) ← invertIf cfg e
  some (e, threaded || merged || elided || reversed)

def rounds (cfg : Peephole) : Nat → Emit κ → Option (Emit κ)
  | 0, e => some e
  | limit + 1, e => do
    let (e, changed) ← e.round cfg
    if changed then rounds cfg limit e else some e

def finalize (cfg : Peephole) (e : Emit κ) : Option (Emit κ) := do
  let e ← e.rounds cfg roundLimit
  e.backpatch

end

end Emit

end Bbq.Bytecode
