import Bbq.Bits.Run
import Mathlib.Data.List.Pairwise

/-!
# A bit field read from and written to a document

What each entry of a run says (`Run.number`), that it is what the CEK machine extracts and what `read_bits` reads, and
that `write_bits` changes the one entry it names. All of it for entries narrower than 64 bits: `read_bits` of a
64-bit signed one shifts by 64.
-/

namespace Bbq.Bits

open Cek (PrimitiveInfo Machine Program)
open Lib.BitRun Zcow

/-! ## What an entry says -/

namespace Run

/-- Where an entry starts in the word. -/
def shift (run : Run) (msbFirst : Bool) (offset : Nat) (e : BitfieldEntry) : Nat :=
  Machine.bitsShift run.container e.width offset msbFirst

/-- The word of a container. -/
def word (msbFirst : Bool) (bs : List UInt8) : BitVec 64 := .ofNat 64 (wordOf (!msbFirst) bs)

/-- **What an entry says**: the bits of the word from its shift on, signed as declared. -/
def number (run : Run) (msbFirst : Bool) (offset : Nat) (e : BitfieldEntry) (bs : List UInt8) : Int :=
  Lib.BitRun.number (e.sign == .signed) ((word msbFirst bs).extractLsb' (run.shift msbFirst offset e) e.width)

/-- No entry is as wide as 64 bits. -/
def Narrow (run : Run) : Prop := ∀ e ∈ run.entries, e.width < 64

instance (run : Run) : Decidable run.Narrow := inferInstanceAs (Decidable (∀ e ∈ _, _))

end Run

section

variable {run : Run} {offset : Nat} {e : BitfieldEntry} {es : List BitfieldEntry} {msb : Bool}

/-! ### Where entries lie -/

theorem offsets_bounds {o : Nat} {x : Nat × BitfieldEntry} (h : x ∈ Run.offsets o es) :
    o ≤ x.1 ∧ x.1 + x.2.width ≤ o + (es.map BitfieldEntry.width).sum := by
  induction es generalizing o with
  | nil => cases h
  | cons e es ih =>
    rw [List.map_cons, List.sum_cons]
    rcases List.mem_cons.1 h with rfl | h
    · exact ⟨Nat.le_refl _, by dsimp only; omega⟩
    · have := ih h
      omega

/-- No two entries overlap. -/
theorem offsets_pairwise (o : Nat) (es : List BitfieldEntry) :
    (Run.offsets o es).Pairwise fun x y => x.1 + x.2.width ≤ y.1 := by
  induction es generalizing o with
  | nil => exact .nil
  | cons e es ih => exact .cons (fun y hy => (offsets_bounds hy).1) (ih _)

theorem placed_le (h : (offset, e) ∈ run.placed) : offset + e.width ≤ 8 * run.container.byteCount := by
  have hle : offset + e.width ≤ 0 + (run.entries.map BitfieldEntry.width).sum := (offsets_bounds h).2
  rw [run.total] at hle
  omega

theorem shift_le (h : (offset, e) ∈ run.placed) : run.shift msb offset e + e.width ≤ 8 * run.container.byteCount := by
  have := placed_le h
  rw [Run.shift, Machine.bitsShift]
  split <;> omega

theorem shift_disjoint {o' : Nat} {e' : BitfieldEntry} (h : (offset, e) ∈ run.placed) (h' : (o', e') ∈ run.placed)
    (hne : e ≠ e') : run.shift msb offset e + e.width ≤ run.shift msb o' e' ∨
      run.shift msb o' e' + e'.width ≤ run.shift msb offset e := by
  have hle := placed_le h
  have hle' := placed_le h'
  have hapart : offset + e.width ≤ o' ∨ o' + e'.width ≤ offset := by
    have hpairs : run.placed.Pairwise fun (x y : Nat × BitfieldEntry) =>
        x.1 + x.2.width ≤ y.1 ∨ y.1 + y.2.width ≤ x.1 :=
      (offsets_pairwise 0 run.entries).imp fun h => .inl h
    have : Std.Symm fun (x y : Nat × BitfieldEntry) => x.1 + x.2.width ≤ y.1 ∨ y.1 + y.2.width ≤ x.1 :=
      ⟨fun _ _ => Or.symm⟩
    exact hpairs.forall h h' fun h => hne (Prod.mk.inj h).2
  rw [Run.shift, Run.shift, Machine.bitsShift, Machine.bitsShift]
  split <;> omega

theorem tag_eq (h : (offset, e) ∈ run.placed) :
    run.tag msb offset e =
      ⟨run.shift msb offset e, run.shift msb offset e + e.width, e.sign == .signed, true⟩ := by
  have hle : run.shift msb offset e + e.width ≤ _ := shift_le h
  have hcount := (byteCount_pos run).2
  rw [Run.tag]
  show (⟨run.shift msb offset e % 256, (run.shift msb offset e + e.width) % 256, _, _⟩ : BitsAt) = _
  rw [Nat.mod_eq_of_lt (by omega), Nat.mod_eq_of_lt (by omega)]

/-! ### What the CEK machine extracts -/

theorem wantLe_eq (littleEndian : Bool) : run.container.wantLe littleEndian = !run.msbFirst littleEndian := by
  rw [PrimitiveInfo.wantLe, Run.msbFirst]
  cases run.container.endian <;> simp

theorem smod_ofNat : ∀ k < 64, ((Int64.ofNat k).toBitVec.smod 64).toNat = k := by decide +kernel

theorem toBitVec_sshr {v : Int64} {k : Nat} (hk : k < 64) : (v >>> Int64.ofNat k).toBitVec = v.toBitVec.sshiftRight k := by
  rw [Int64.toBitVec_shiftRight, BitVec.sshiftRight_eq', smod_ofNat k hk]

theorem toBitVec_sshl {v : Int64} {k : Nat} (hk : k < 64) : (v <<< Int64.ofNat k).toBitVec = v.toBitVec <<< k := by
  rw [Int64.toBitVec_shiftLeft, BitVec.shiftLeft_eq', smod_ofNat k hk]

/-- `int64_t` masking and sign extension of the entry of a word. -/
theorem bitsValue_toInt {raw : Int64} {s n : Nat} {isSigned : Bool} (hn : 0 < n) (hlt : n < 64) (hs : s + n ≤ 64) :
    (Machine.bitsValue raw s n isSigned).toInt =
      Lib.BitRun.number isSigned (raw.toBitVec.extractLsb' s n) := by
  have hmask : ((1 : Int64) <<< Int64.ofNat n - 1).toBitVec = mask 64 n := by
    rw [Int64.toBitVec_sub, toBitVec_sshl hlt]
    rfl
  have hv : (raw >>> Int64.ofNat s &&& (1 <<< Int64.ofNat n - 1)).toBitVec =
      (raw.toBitVec.extractLsb' s n).setWidth 64 := by
    rw [Int64.toBitVec_and, toBitVec_sshr (by omega), hmask, and_sshiftRight_eq hlt hs]
  have hnarrow : ¬ n ≥ 64 := by omega
  simp only [Machine.bitsValue, if_neg hnarrow]
  generalize raw >>> Int64.ofNat s &&& (1 <<< Int64.ofNat n - 1) = v at *
  have hbit : v &&& 1 <<< Int64.ofNat (n - 1) = 0 ↔ v.toBitVec &&& 1#64 <<< (n - 1) = 0#64 := by
    rw [← Int64.toBitVec_inj, Int64.toBitVec_and, toBitVec_sshl (by omega)]
    rfl
  refine extended_toInt hn hlt hv (fun hsigned hset => ?_) fun hclear => ?_
  · rw [if_pos ⟨hsigned, hn, hlt, fun h => hset (hbit.1 h)⟩, Int64.toBitVec_sub, toBitVec_sshl hlt]
    rfl
  · rw [if_neg fun h => h.2.2.2 (hbit.2 (hclear h.1))]

/-- The low bits of a container's value are its word's. -/
theorem extract_wordToInt64 {isSigned : Bool} {k w s n : Nat} (hk : k ≤ 8) (hs : s + n ≤ 8 * k) :
    (wordToInt64 isSigned k w).toBitVec.extractLsb' s n = (BitVec.ofNat 64 w).extractLsb' s n := by
  rw [wordToInt64, Int64.toBitVec_ofInt, ← BitVec.ofInt_natCast]
  refine extract_ofInt_congr (k := 8 * k) (by omega) hs ?_
  cases isSigned with
  | false => rfl
  | true =>
    rw [if_pos rfl, signExtend]
    exact Int.bmod_emod

variable {p : Program} {m : Machine}

/-- **The CEK machine** extracts what the entry says. -/
theorem extracted_toInt (h : (offset, e) ∈ run.placed) (hnarrow : run.Narrow) :
    (extracted p run m offset e).toInt =
      run.number (run.msbFirst m.littleEndian) offset e (bytesAt p.bytes m.pos run.container.byteCount) := by
  have hmem := mem_offsets h
  have hcount := (byteCount_pos run).2
  have hle : run.shift (run.msbFirst m.littleEndian) offset e + e.width ≤ _ := shift_le h
  rw [extracted, Run.number, Run.word, ← wantLe_eq]
  refine (bitsValue_toInt (run.positive e hmem) (hnarrow e hmem) (by rw [← Run.shift]; omega)).trans ?_
  rw [Machine.readPrimitive, run.integer]
  exact congrArg (Lib.BitRun.number _) (extract_wordToInt64 hcount hle)

/-! ### A run in a document -/

variable {c : Node} {src : List UInt8}

/-- The captured children of a run are its layout. -/
theorem RunNode.holds (h : RunNode p run m c) (hfit : Fits p run m) :
    Holds run (run.msbFirst m.littleEndian) c p.bytes := by
  refine ⟨?_, h.msbFirst, ?_⟩
  · rw [h.kids]
    generalize run.placed = es
    induction es with
    | nil => rfl
    | cons x es ih =>
      rw [List.flatMap_cons, List.map_append, ih, List.filter_cons, entryKids]
      by_cases hname : x.2.name = "_" <;> simp [hname, entryNode]
  · have hlen := hfit.2
    have hend := hfit.1
    rw [h.span, bytesAt, List.length_take, List.length_drop]
    omega

theorem map_snd_offsets (o : Nat) (es : List BitfieldEntry) : (Run.offsets o es).map Prod.snd = es := by
  induction es generalizing o with
  | nil => rfl
  | cons e es ih => rw [Run.offsets, List.map_cons, ih]

/-- Among entries of different names the first of a name is the one. -/
theorem find_name {xs : List (Nat × BitfieldEntry)} {x : Nat × BitfieldEntry}
    (hnodup : (xs.map fun y => y.2.name).Nodup) (hx : x ∈ xs) :
    xs.find? (fun y => y.2.name == x.2.name) = some x := by
  induction xs with
  | nil => cases hx
  | cons y ys ih =>
    rw [List.map_cons, List.nodup_cons] at hnodup
    rcases List.mem_cons.1 hx with rfl | hx
    · exact List.find?_cons_of_pos (by simp)
    · have hne : ¬ (y.2.name == x.2.name) = true := by
        intro heq
        exact hnodup.1 (List.mem_map.2 ⟨x, hx, (eq_of_beq heq).symm⟩)
      exact (List.find?_cons_of_neg (p := fun y : Nat × BitfieldEntry => y.2.name == x.2.name) hne).trans (ih hnodup.2 hx)

/-- An entry is found by its name. -/
theorem Holds.entry (h : Holds run msb c src) (hx : (offset, e) ∈ run.placed) (hname : e.name ≠ "_") :
    bitsEntry c e.name = .ok (run.tag msb offset e) := by
  have hnodup : ((run.placed.filter fun y => y.2.name ≠ "_").map fun y => y.2.name).Nodup := by
    have hsub := (List.filter_sublist (l := run.placed) (p := fun x => decide (x.2.name ≠ "_"))).map fun y => y.2.name
    refine List.Nodup.sublist hsub ?_
    have hnames := run.distinct
    rw [← map_snd_offsets 0 run.entries, List.map_map] at hnames
    exact hnames
  have hmem : (offset, e) ∈ run.placed.filter fun y => y.2.name ≠ "_" :=
    List.mem_filter.2 ⟨hx, by simpa using hname⟩
  have hfind := congrArg (List.find? fun k : Option String × BitsAt => k.1 == some e.name && k.2.isEntry) h.kids
  rw [List.find?_map, List.find?_map] at hfind
  have hpred : ((fun k : Option String × BitsAt => k.1 == some e.name && k.2.isEntry) ∘
      fun (x : Nat × BitfieldEntry) => (some x.2.name, run.tag msb x.1 x.2)) = fun y => y.2.name == e.name := by
    funext y
    simp [Run.tag]
  have hfound := find_name hnodup hmem
  rw [hpred, hfound, Option.map_some] at hfind
  rcases hk : c.kids.find? fun k => k.cell.name == some e.name && k.cell.bits.isEntry with _ | k
  · rw [show ((fun k : Option String × BitsAt => k.1 == some e.name && k.2.isEntry) ∘
      fun k : Node => (k.cell.name, k.cell.bits)) = fun k => k.cell.name == some e.name && k.cell.bits.isEntry from rfl,
      hk] at hfind
    cases hfind
  · rw [show ((fun k : Option String × BitsAt => k.1 == some e.name && k.2.isEntry) ∘
      fun k : Node => (k.cell.name, k.cell.bits)) = fun k => k.cell.name == some e.name && k.cell.bits.isEntry from rfl,
      hk, Option.map_some, Option.some.injEq] at hfind
    rw [bitsEntry, hk]
    exact congrArg Except.ok (Prod.mk.inj hfind).2

theorem tag_within (hx : (offset, e) ∈ run.placed) (hnarrow : run.Narrow) :
    (run.tag msb offset e).Within run.container.byteCount := by
  have hmem := mem_offsets hx
  have hpos := run.positive e hmem
  have hlt := hnarrow e hmem
  have hle : run.shift msb offset e + e.width ≤ _ := shift_le hx
  rw [tag_eq hx]
  exact ⟨by dsimp only; omega, hle, by dsimp only; omega⟩

theorem Holds.bitsWord_eq (h : Holds run msb c src) :
    ∃ w, bitsWord c src = .ok w ∧ w.toBitVec = Run.word msb (runBytes c src) := by
  obtain ⟨hpos, h8⟩ := byteCount_pos run
  obtain ⟨w, hw, hword⟩ := Zcow.bitsWord_eq (by rw [h.length]; exact h8 : (runBytes c src).length ≤ 8)
    (by rw [h.length]; omega)
  refine ⟨w, hw, ?_⟩
  rw [Run.word, ← h.msbFirst, ← hword]
  exact BitVec.eq_of_toNat_eq (by simp)

/-- What an entry's tag says of the run's word. -/
theorem value_tag (hx : (offset, e) ∈ run.placed) {w : UInt64} {bs : List UInt8} (hw : w.toBitVec = Run.word msb bs) :
    (run.tag msb offset e).value w = run.number msb offset e bs := by
  rw [tag_eq hx, BitsAt.value, hw, Run.number, Nat.add_sub_cancel_left]

/-- **`read_bits`** reads what the entry says. -/
theorem Holds.readBits_eq (h : Holds run msb c src) (hnarrow : run.Narrow) (hx : (offset, e) ∈ run.placed)
    (hname : e.name ≠ "_") :
    ∃ r, readBits c e.name src = .ok r ∧ r.toInt = run.number msb offset e (runBytes c src) := by
  obtain ⟨w, hw, hword⟩ := h.bitsWord_eq
  have hin : (run.tag msb offset e).Within _ := tag_within hx hnarrow
  rw [← h.length] at hin
  have h8 := (byteCount_pos run).2
  rw [← h.length] at h8
  obtain ⟨r, hr, hval⟩ := Zcow.readBits_eq (h.entry hx hname) hin h8 hw
  exact ⟨r, hr, hval.trans (value_tag hx hword)⟩

/-- The number a value written to an entry is read back as. -/
def cut (e : BitfieldEntry) (v : Int64) : Int :=
  Lib.BitRun.number (e.sign == .signed) (v.toBitVec.setWidth e.width)

/-- **`write_bits`** leaves a run, with the entry cut to its width and all others as they were. -/
theorem Holds.writeBits_eq (h : Holds run msb c src) (hnarrow : run.Narrow) (hx : (offset, e) ∈ run.placed)
    (hname : e.name ≠ "_") (v : Int64) :
    ∃ c', writeBits c e.name src v = .ok c' ∧ Holds run msb c' src ∧
      run.number msb offset e (runBytes c' src) = cut e v ∧
      (∀ o' e', (o', e') ∈ run.placed → e ≠ e' →
        run.number msb o' e' (runBytes c' src) = run.number msb o' e' (runBytes c src)) ∧
      (v.toInt = run.number msb offset e (runBytes c src) → runBytes c' src = runBytes c src) := by
  obtain ⟨w, hw, hword⟩ := h.bitsWord_eq
  have hin : (run.tag msb offset e).Within _ := tag_within hx hnarrow
  rw [← h.length] at hin
  have h8 := (byteCount_pos run).2
  rw [← h.length] at h8
  obtain ⟨c', hc', hkeep, ⟨w', hw', hput⟩, hback⟩ := Zcow.writeBits_eq (h.entry hx hname) hin h8 hw v
  have hholds : Holds run msb c' src :=
    ⟨by rw [hkeep.kids]; exact h.kids, hkeep.msbFirst.trans h.msbFirst, hkeep.length.trans h.length⟩
  obtain ⟨w₂, hw₂, hword'⟩ := hholds.bitsWord_eq
  cases hw'.symm.trans hw₂
  have hmem := mem_offsets hx
  have hlt := hnarrow e hmem
  have hle : run.shift msb offset e + e.width ≤ _ := shift_le hx
  have hcount := (byteCount_pos run).2
  rw [tag_eq hx, Nat.add_sub_cancel_left, hword, hword'] at hput
  rw [tag_eq hx, Nat.add_sub_cancel_left, hword] at hback
  refine ⟨c', hc', hholds, ?_, fun o' e' hx' hne => ?_, fun hsame => hback ?_⟩
  · rw [Run.number, hput, extract_put hlt (by omega), cut]
  · rw [Run.number, hput, extract_put_of_disjoint hlt (shift_disjoint hx hx' hne), Run.number]
  · have hv : v.toBitVec = BitVec.ofInt 64 v.toInt := (BitVec.ofInt_toInt ..).symm
    rw [hv, setWidth_ofInt (by omega), hsame, Run.number, Lib.BitRun.number]
    split
    · exact BitVec.ofInt_toInt ..
    · rw [BitVec.ofInt_natCast]
      exact BitVec.eq_of_toNat_eq (by simp)

end

end Bbq.Bits
