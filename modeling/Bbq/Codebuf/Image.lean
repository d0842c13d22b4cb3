import Bbq.Codebuf.Buffer

/-!
# What was asked of the buffer

`Image` is the code as the calls since the last reset describe it, without an address: a byte that was
emitted or patched, or one of the four bytes of a field that is to reach a target. `resolve` gives the bytes
at an address, and `Delivered` says of a pointer that they are there.

`Meets` is the condition on a call: no sum wraps, no write goes to pages that are not writable, the
displacement can be measured, and `mprotect` does not fail.
-/

namespace Bbq.Codebuf

open Bbq.Lib Bbq.Zcow

/-- A byte of the code, whatever the address: itself, or the `i`-th of a displacement to `target`. -/
inductive Cell
  | byte (v : UInt8)
  | rel (target : UInt64) (i : Nat)

abbrev Image := List Cell

def relCells (target : UInt64) : Image := (List.range 4).map (Cell.rel target)

/-- The code after a call that is not refused. -/
def intended (image : Image) : Op → Image
  | .emit data _ => image ++ data.map .byte
  | .patch32 off v => splice image off.toNat ((wordBytes 4 v.toUInt32.toUInt64).map .byte)
  | .patch64 off v => splice image off.toNat ((wordBytes 8 v).map .byte)
  | .patchRel32 off target => splice image off.toNat (relCells target)
  | .sealBuf => image
  | .reset => []
  | .finalize _ _ => image

/-- The byte of a cell at position `k`. -/
def Cell.resolve (base k : Nat) : Cell → UInt8
  | .byte v => v
  | .rel target i => (relBytes base (k - i) target).getD i 0

def resolve (base : Nat) (image : Image) : List UInt8 := image.mapIdx fun k cell => cell.resolve base k

/-- The field at `off` is meant to reach `target`, all of it. -/
def IsField (image : Image) (off : Nat) (target : UInt64) : Prop := ∀ i < 4, image[off + i]? = some (.rel target i)

/-- The displacement at `off` of code at `p`, counted from behind the field, leads to `target`. -/
def Reaches (p : Nat) (code : List UInt8) (off : Nat) (target : UInt64) : Prop :=
  ((p : Int) + off + 4 + signExtend 4 (leNat (bytesAt code off 4))) % 2 ^ 64 = target.toNat

/-- The code at `p` is the image. -/
structure Delivered (p : Nat) (b : CodeBuf) (image : Image) : Prop where
  base : p = b.base
  size : b.size.toNat = image.length
  bytes : b.mem.take b.size.toNat = resolve p image
  fields : ∀ off target, IsField image off target → Reaches p b.mem off target

/-- What a call must do. -/
structure Good (image : Image) (op : Op) (b : CodeBuf) (eff : Effect) : Prop where
  refused : eff.refused = true → b.failed = true
  within : ∀ w ∈ eff.wrote, w.1 + w.2 ≤ b.size.toNat
  delivered : ∀ p, eff.ret = some p → Delivered p b (intended image op)

/-- The condition on an absolute patch of `n` bytes. -/
def PatchMeets (b : CodeBuf) (off : UInt64) (n : Nat) : Prop :=
  b.size < off + UInt64.ofNat n ∨ b.writable = true ∧ off.toNat + n ≤ b.size.toNat

/-- The condition on a call. -/
def Meets (page : Page) (b : CodeBuf) : Op → Prop
  | .emit data map =>
    b.isSealed = true ∨
      if b.size + UInt64.ofNat data.length ≤ b.cap then
        data = [] ∨ b.writable = true ∧ b.size.toNat + data.length ≤ b.cap.toNat
      else
        b.finalized = true ∨ map = none ∨
          b.size.toNat + data.length ≤ (growTo page b (UInt64.ofNat data.length)).toNat
  | .patch32 off _ => PatchMeets b off 4
  | .patch64 off _ => PatchMeets b off 8
  | .patchRel32 off target =>
    b.isSealed = false ∨ b.size < off + 4 ∨
      off.toNat + 4 ≤ b.size.toNat ∧ Measurable b.base off.toNat target ∧
        (Near b.base off.toNat target → b.writable = true)
  | .sealBuf => True
  | .reset => True
  | .finalize _ mprotect => b.failed = true ∨ b.finalized = true ∨ b.size = 0 ∨ mprotect = true

/-- Every call of the run meets the condition in the state it is made in. -/
def AllMeet (page : Page) : CodeBuf → List Op → Prop
  | _, [] => True
  | b, op :: ops =>
    Meets page b op ∧
      match step page b op with
      | none => True
      | some (b', _) => AllMeet page b' ops

instance (b : CodeBuf) (off : UInt64) (n : Nat) : Decidable (PatchMeets b off n) :=
  inferInstanceAs (Decidable (_ ∨ _))

instance (page : Page) (b : CodeBuf) : ∀ op, Decidable (Meets page b op)
  | .emit _ _ => inferInstanceAs (Decidable (_ ∨ ite _ _ _))
  | .patch32 _ _ | .patch64 _ _ => inferInstanceAs (Decidable (PatchMeets _ _ _))
  | .patchRel32 _ _ => inferInstanceAs (Decidable (_ ∨ _ ∨ _))
  | .sealBuf | .reset => .isTrue trivial
  | .finalize _ _ => inferInstanceAs (Decidable (_ ∨ _ ∨ _ ∨ _))

instance decidableAllMeet (page : Page) : ∀ b ops, Decidable (AllMeet page b ops)
  | _, [] => .isTrue trivial
  | b, op :: ops =>
    @instDecidableAnd _ _ inferInstance
      (match step page b op with
        | none => .isTrue trivial
        | some (b', _) => decidableAllMeet page b' ops)

/-- Every call of the run is defined and does what it must. -/
def AllGood (page : Page) : CodeBuf → Image → List Op → Prop
  | _, _, [] => True
  | b, image, op :: ops =>
    match step page b op with
    | none => False
    | some (b', eff) => Good image op b' eff ∧ AllGood page b' (intended image op) ops

/-! ## Cells and their bytes -/

section Cells

variable {base k off : Nat} {image : Image} {target : UInt64}

@[simp] theorem length_resolve : (resolve base image).length = image.length := List.length_mapIdx

theorem getElem?_resolve : (resolve base image)[k]? = (image[k]?).map (Cell.resolve base k) := by
  rw [resolve, List.getElem?_mapIdx]

theorem length_relBytes : (relBytes base off target).length = 4 := length_wordBytes

@[simp] theorem length_relCells : (relCells target).length = 4 := by
  rw [relCells, List.length_map, List.length_range]

theorem getElem?_relCells {i : Nat} (hi : i < 4) : (relCells target)[i]? = some (.rel target i) := by
  rw [relCells, List.getElem?_map, List.getElem?_range hi, Option.map_some]

theorem map_resolve_byte (v : Option UInt8) : (v.map Cell.byte).map (Cell.resolve base k) = v := by
  cases v with
  | none => rfl
  | some v => rfl

theorem resolve_append_bytes (data : List UInt8) :
    resolve base (image ++ data.map .byte) = resolve base image ++ data := by
  refine List.ext_getElem? fun k => ?_
  rw [getElem?_resolve]
  by_cases hk : k < image.length
  · rw [List.getElem?_append_left hk, List.getElem?_append_left (by rw [length_resolve]; exact hk), getElem?_resolve]
  · have hle : image.length ≤ k := Nat.le_of_not_lt hk
    rw [List.getElem?_append_right hle, List.getElem?_append_right (by rw [length_resolve]; exact hle), length_resolve, List.getElem?_map,
      map_resolve_byte]

theorem resolve_splice_bytes {data : List UInt8} (h : off + data.length ≤ image.length) :
    resolve base (splice image off (data.map .byte)) = splice (resolve base image) off data := by
  refine List.ext_getElem? fun k => ?_
  rw [getElem?_resolve, getElem?_splice (by rw [List.length_map]; exact h),
    getElem?_splice (by rw [length_resolve]; exact h), List.length_map]
  split
  · rw [List.getElem?_map, map_resolve_byte]
  · rw [getElem?_resolve]

theorem resolve_splice_rel (h : off + 4 ≤ image.length) :
    resolve base (splice image off (relCells target)) = splice (resolve base image) off (relBytes base off target) := by
  refine List.ext_getElem? fun k => ?_
  rw [getElem?_resolve, getElem?_splice (by rw [length_relCells]; exact h),
    getElem?_splice (by rw [length_resolve, length_relBytes]; exact h), length_relCells, length_relBytes]
  split
  · next hk =>
    have hi : k - off < 4 := by omega
    have hback : k - (k - off) = off := by omega
    rw [getElem?_relCells hi, Option.map_some, Cell.resolve, hback, List.getD_eq_getElem?_getD,
      List.getElem?_eq_getElem (by rw [length_relBytes]; exact hi), Option.getD_some]
  · rw [getElem?_resolve]

end Cells

end Bbq.Codebuf
