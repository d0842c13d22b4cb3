import Bbq.Bytes
import Bbq.Lib.BitRun
import Mathlib.Data.List.Induction

/-!
# Bit fields of a document

`read_bits` and `write_bits` (`backends/cpp/runtime/CaptureCow.h:1106-1169`). An entry has no storage of its own:
both name the run, and the entry in it.

* A source is its bytes; a null buffer has none.
* `int64_t` arithmetic wraps. A shift by 64 or more is undefined in C++, and differs between targets: it has no
  value here.
-/

namespace Bbq.Zcow

open Lib.BitRun

/-- What an accessor may come to instead of a value. -/
inductive Fault
  | typeError (message : String)
  | undefined
  deriving DecidableEq, Repr

/-- `x << n`. -/
def shl (x : UInt64) (n : Nat) : Except Fault UInt64 :=
  if n < 64 then .ok (x <<< UInt64.ofNat n) else .error .undefined

/-- `x >> n`. -/
def shr (x : UInt64) (n : Nat) : Except Fault UInt64 :=
  if n < 64 then .ok (x >>> UInt64.ofNat n) else .error .undefined

/-- `(unsigned)(bits.end - bits.start)`. -/
def BitsAt.width (e : BitsAt) : Nat :=
  if e.start ≤ e.stop then e.stop - e.start else 2 ^ 32 + e.stop - e.start

/-- `bits_entry`. -/
def bitsEntry (container : Node) (name : String) : Except Fault BitsAt :=
  match container.kids.find? fun k => k.cell.name == some name && k.cell.bits.isEntry with
  | some k => .ok k.cell.bits
  | none => .error (.typeError ("no bitfield entry '" ++ name ++ "' in this run"))

/-- `run_bytes`: what was written into the run, or what it was parsed from. -/
def runBytes (c : Node) (src : List UInt8) : List UInt8 :=
  if c.cell.bval ≠ [] then c.cell.bval
  else if c.cell.startOffset < c.cell.endOffset
    then bytesAt src c.cell.startOffset (c.cell.endOffset - c.cell.startOffset)
  else []

/-- A word from its bytes, most significant first. -/
def foldWord (bs : List UInt8) : UInt64 := bs.foldl (fun w b => w <<< 8 ||| b.toUInt64) 0

/-- `bits_word`: the run's bytes as one integer, in the order the run is laid out. -/
def bitsWord (c : Node) (src : List UInt8) : Except Fault UInt64 :=
  let b := runBytes c src
  if b.length = 0 ∨ b.length > 8 then .error (.typeError "bitfield run has no usable width")
  else .ok (foldWord (if c.cell.bitsMsbFirst then b else b.reverse))

/-- The low `width` bits. -/
def entryMask (width : Nat) : Except Fault UInt64 :=
  if width ≥ 64 then .ok (~~~0) else do return (← shl 1 width) - 1

/-- `read_bits`. -/
def readBits (container : Node) (entry : String) (src : List UInt8) : Except Fault Int64 := do
  let e ← bitsEntry container entry
  let mask ← entryMask e.width
  let v := (← shr (← bitsWord container src) e.start) &&& mask
  if e.isSigned ∧ e.width ≠ 0 then
    if v &&& (← shl 1 (e.width - 1)) ≠ 0 then
      return v.toInt64 - (← shl 1 e.width).toInt64
  return v.toInt64

/-- The `n` low bytes of a word, the least significant first. -/
def wordBytes (n : Nat) (w : UInt64) : List UInt8 :=
  (List.range n).map fun i => (w >>> UInt64.ofNat (i * 8)).toUInt8

/-- `write_bits`. -/
def writeBits (container : Node) (entry : String) (src : List UInt8) (v : Int64) : Except Fault Node := do
  let e ← bitsEntry container entry
  let n := (runBytes container src).length
  let mask ← entryMask e.width
  let w ← bitsWord container src
  let w := w &&& ~~~(← shl mask e.start) ||| (← shl (v.toUInt64 &&& mask) e.start)
  let out := wordBytes n w
  let out := if container.cell.bitsMsbFirst then out.reverse else out
  return .mk { container.cell with parsed := false, bval := out } container.kids

section

variable {bs : List UInt8} {n : Nat} {w : UInt64}

/-! ## Words and their bytes -/

theorem leNat_lt (bs : List UInt8) : leNat bs < 256 ^ bs.length := by
  induction bs with
  | nil => decide
  | cons b bs ih =>
    have hb := b.toNat_lt
    have : 256 ^ (b :: bs).length = 256 * 256 ^ bs.length := by rw [List.length_cons, Nat.pow_succ, Nat.mul_comm]
    rw [leNat, this]
    omega

theorem foldWord_concat (bs : List UInt8) (b : UInt8) :
    foldWord (bs ++ [b]) = foldWord bs <<< 8 ||| b.toUInt64 := by
  rw [foldWord, List.foldl_append]
  rfl

/-- The word `bits_word` puts together. -/
theorem toNat_foldWord (h : bs.length ≤ 8) : (foldWord bs).toNat = leNat bs.reverse := by
  induction bs using List.reverseRecOn with
  | nil => rfl
  | append_singleton bs b ih =>
    rw [List.length_append, List.length_singleton] at h
    have hword := leNat_lt bs.reverse
    have hpow : 256 ^ bs.reverse.length ≤ 256 ^ 7 := by
      rw [List.length_reverse]
      exact Nat.pow_le_pow_right (by omega) (by omega)
    have hb := b.toNat_lt
    have hshift : leNat bs.reverse <<< 8 % 2 ^ 64 = 2 ^ 8 * leNat bs.reverse := by
      rw [Nat.shiftLeft_eq]
      omega
    have hor := Nat.two_pow_add_eq_or_of_lt (i := 8) hb (leNat bs.reverse)
    rw [foldWord_concat, UInt64.toNat_or, UInt64.toNat_shiftLeft, ih (by omega), List.reverse_concat, leNat,
      show (8 : UInt64).toNat % 64 = 8 from rfl, hshift, UInt8.toNat_toUInt64, ← hor]
    omega

theorem toNat_shr (hn : n < 64) : (w >>> UInt64.ofNat n).toNat = w.toNat / 2 ^ n := by
  have hmod : (UInt64.ofNat n).toNat % 64 = n := by
    rw [UInt64.toNat_ofNat']
    omega
  rw [UInt64.toNat_shiftRight, hmod, Nat.shiftRight_eq_div_pow]

theorem wordBytes_succ (hn : n < 8) : wordBytes (n + 1) w = w.toUInt8 :: wordBytes n (w >>> 8) := by
  have hzero : w >>> UInt64.ofNat (0 * 8) = w := by
    rw [← UInt64.toNat_inj, toNat_shr (by omega)]
    omega
  rw [wordBytes, List.range_succ_eq_map, List.map_cons, hzero, List.map_map, wordBytes]
  refine congrArg _ (List.map_congr_left fun i hi => congrArg UInt64.toUInt8 ?_)
  have hi := List.mem_range.1 hi
  have h8 : (w >>> 8).toNat = w.toNat / 2 ^ 8 := toNat_shr (n := 8) (by omega)
  rw [← UInt64.toNat_inj, toNat_shr (by omega), toNat_shr (by omega), h8, Nat.div_div_eq_div_mul, ← Nat.pow_add,
    show (i + 1) * 8 = 8 + i * 8 by omega]

/-- The bytes of a word hold it, cut to them. -/
theorem leNat_wordBytes (hn : n ≤ 8) : leNat (wordBytes n w) = w.toNat % 256 ^ n := by
  induction n generalizing w with
  | zero => rw [Nat.pow_zero, Nat.mod_one]; rfl
  | succ n ih =>
    have h8 : (w >>> 8).toNat = w.toNat / 256 := toNat_shr (n := 8) (by omega)
    have hpow : 256 ^ (n + 1) = 256 * 256 ^ n := by rw [Nat.pow_succ, Nat.mul_comm]
    rw [wordBytes_succ (by omega), leNat, ih (by omega), h8, UInt64.toNat_toUInt8, hpow, Nat.mod_mul]

theorem length_wordBytes : (wordBytes n w).length = n := by
  rw [wordBytes, List.length_map, List.length_range]

/-- Bytes are their word's. -/
theorem wordBytes_leNat (h : bs.length ≤ 8) (hw : w.toNat = leNat bs) : wordBytes bs.length w = bs := by
  induction bs generalizing w with
  | nil => rfl
  | cons b bs ih =>
    rw [List.length_cons] at h
    have hb := b.toNat_lt
    rw [leNat] at hw
    have h8 : (w >>> 8).toNat = w.toNat / 256 := toNat_shr (n := 8) (by omega)
    have hlow : w.toUInt8 = b := by
      rw [← UInt8.toNat_inj, UInt64.toNat_toUInt8]
      omega
    rw [List.length_cons, wordBytes_succ (by omega), hlow, ih (by omega)]
    omega

/-! ## The accessors -/

variable {c : Node} {src : List UInt8} {name : String} {e : BitsAt}

/-- An entry within a run of `n` bytes, narrower than a word. -/
structure BitsAt.Within (e : BitsAt) (n : Nat) : Prop where
  lt : e.start < e.stop
  le : e.stop ≤ 8 * n
  narrow : e.stop - e.start < 64

/-- What an entry says in a word. -/
def BitsAt.value (e : BitsAt) (w : UInt64) : Int :=
  number e.isSigned (w.toBitVec.extractLsb' e.start (e.stop - e.start))

/-- The number of `int64_t` an entry can hold, as it is read back. -/
def BitsAt.cut (e : BitsAt) (v : Int64) : Int :=
  number e.isSigned (v.toBitVec.setWidth (e.stop - e.start))

theorem BitsAt.Within.width_eq (h : e.Within n) : e.width = e.stop - e.start := if_pos (Nat.le_of_lt h.lt)

/-- What `bits_word` reads. -/
theorem bitsWord_eq (h : (runBytes c src).length ≤ 8) (h0 : (runBytes c src).length ≠ 0) :
    ∃ w, bitsWord c src = .ok w ∧ w.toNat = wordOf (!c.cell.bitsMsbFirst) (runBytes c src) := by
  refine ⟨_, if_neg (by omega), ?_⟩
  cases hm : c.cell.bitsMsbFirst with
  | true =>
    rw [if_pos rfl, toNat_foldWord h]
    rfl
  | false =>
    rw [if_neg Bool.false_ne_true, toNat_foldWord (by rwa [List.length_reverse]), List.reverse_reverse]
    rfl

theorem wordOf_lt (little : Bool) (bs : List UInt8) : wordOf little bs < 256 ^ bs.length := by
  cases little with
  | true => exact leNat_lt bs
  | false =>
    have := leNat_lt bs.reverse
    rwa [List.length_reverse] at this

theorem shiftAmount (hn : n < 64) : ((UInt64.ofNat n).toBitVec % 64).toNat = n := by
  show n % 2 ^ 64 % 64 = n
  omega

theorem toBitVec_shl (hn : n < 64) : (w <<< UInt64.ofNat n).toBitVec = w.toBitVec <<< n := by
  rw [UInt64.toBitVec_shiftLeft, BitVec.shiftLeft_eq', shiftAmount hn]

theorem toBitVec_shr (hn : n < 64) : (w >>> UInt64.ofNat n).toBitVec = w.toBitVec >>> n := by
  rw [UInt64.toBitVec_shiftRight, BitVec.ushiftRight_eq', shiftAmount hn]

theorem entryMask_eq (hn : n < 64) : ∃ m, entryMask n = .ok m ∧ m.toBitVec = mask 64 n := by
  refine ⟨1 <<< UInt64.ofNat n - 1, ?_, ?_⟩
  · rw [entryMask, if_neg (by omega), shl, if_pos hn]
    rfl
  · rw [UInt64.toBitVec_sub, toBitVec_shl hn]
    rfl

/-- **`read_bits`** of an entry narrower than a word. -/
theorem readBits_eq (he : bitsEntry c name = .ok e) (hin : e.Within (runBytes c src).length)
    (h8 : (runBytes c src).length ≤ 8) (hw : bitsWord c src = .ok w) :
    ∃ r, readBits c name src = .ok r ∧ r.toInt = e.value w := by
  have hwidth := hin.width_eq
  obtain ⟨hlt, hle, hnarrow⟩ := hin
  obtain ⟨m, hm, hmask⟩ := entryMask_eq hnarrow
  have hshr : shr w e.start = .ok (w >>> UInt64.ofNat e.start) := if_pos (by omega)
  have htop : shl 1 (e.stop - e.start - 1) = .ok (1 <<< UInt64.ofNat (e.stop - e.start - 1)) := if_pos (by omega)
  have hfull : shl 1 (e.stop - e.start) = .ok (1 <<< UInt64.ofNat (e.stop - e.start)) := if_pos hnarrow
  have hne : e.stop - e.start ≠ 0 := by omega
  have hv : (w >>> UInt64.ofNat e.start &&& m).toBitVec =
      (w.toBitVec.extractLsb' e.start (e.stop - e.start)).setWidth 64 := by
    rw [UInt64.toBitVec_and, toBitVec_shr (by omega), hmask, ← field_eq hnarrow]
    rfl
  simp only [readBits, he, hwidth, hm, hw, hshr, htop, hfull, hne, ne_eq, not_false_eq_true, and_true, bind,
    Except.bind, pure, Except.pure]
  generalize w >>> UInt64.ofNat e.start &&& m = v at *
  have hbit : v &&& 1 <<< UInt64.ofNat (e.stop - e.start - 1) = 0 ↔
      v.toBitVec &&& 1#64 <<< (e.stop - e.start - 1) = 0#64 := by
    rw [← UInt64.toBitVec_inj, UInt64.toBitVec_and, toBitVec_shl (by omega)]
    rfl
  have hplain : (e.isSigned = true → v &&& 1 <<< UInt64.ofNat (e.stop - e.start - 1) = 0) →
      v.toInt64.toInt = e.value w := fun h =>
    extended_toInt (by omega) hnarrow hv (fun hs hne => absurd (hbit.1 (h hs)) hne) fun _ => rfl
  by_cases hs : e.isSigned = true
  · by_cases h : v &&& 1 <<< UInt64.ofNat (e.stop - e.start - 1) = 0
    · rw [if_pos hs, if_neg (not_not.2 h)]
      exact ⟨_, rfl, hplain fun _ => h⟩
    · rw [if_pos hs, if_pos h]
      refine ⟨_, rfl, extended_toInt (by omega) hnarrow hv (fun _ _ => ?_) fun h0 => absurd (hbit.2 (h0 hs)) h⟩
      rw [Int64.toBitVec_sub, UInt64.toBitVec_toInt64, UInt64.toBitVec_toInt64, toBitVec_shl hnarrow]
      rfl
  · rw [if_neg hs]
    exact ⟨_, rfl, hplain fun h => absurd h hs⟩

/-- What a written run keeps of the run it was. -/
structure Rewritten (c c' : Node) (src : List UInt8) : Prop where
  kids : c'.kids = c.kids
  msbFirst : c'.cell.bitsMsbFirst = c.cell.bitsMsbFirst
  length : (runBytes c' src).length = (runBytes c src).length

/-- **`write_bits`** puts the value into the word. -/
theorem writeBits_eq (he : bitsEntry c name = .ok e) (hin : e.Within (runBytes c src).length)
    (h8 : (runBytes c src).length ≤ 8) (hw : bitsWord c src = .ok w) (v : Int64) :
    ∃ c', writeBits c name src v = .ok c' ∧ Rewritten c c' src ∧
      (∃ w', bitsWord c' src = .ok w' ∧
        w'.toBitVec = put w.toBitVec e.start (e.stop - e.start) v.toBitVec) ∧
      (v.toBitVec.setWidth _ = w.toBitVec.extractLsb' e.start (e.stop - e.start) →
        runBytes c' src = runBytes c src) := by
  have hwidth := hin.width_eq
  obtain ⟨hlt, hle, hnarrow⟩ := hin
  obtain ⟨m, hm, hmask⟩ := entryMask_eq hnarrow
  obtain ⟨w₀, hw₀, hword⟩ := bitsWord_eq h8 (by omega)
  cases hw.symm.trans hw₀
  have hlow : w.toNat < 256 ^ (runBytes c src).length := hword ▸ wordOf_lt _ _
  have hm' : shl m e.start = .ok (m <<< UInt64.ofNat e.start) := if_pos (by omega)
  have hv : shl (v.toUInt64 &&& m) e.start = .ok ((v.toUInt64 &&& m) <<< UInt64.ofNat e.start) := if_pos (by omega)
  have hput : (w &&& ~~~(m <<< UInt64.ofNat e.start) ||| (v.toUInt64 &&& m) <<< UInt64.ofNat e.start).toBitVec =
      put w.toBitVec e.start (e.stop - e.start) v.toBitVec := by
    rw [UInt64.toBitVec_or, UInt64.toBitVec_and, UInt64.toBitVec_not, toBitVec_shl (by omega),
      toBitVec_shl (by omega), UInt64.toBitVec_and, hmask]
    rfl
  simp only [writeBits, he, hwidth, hm, hw, hm', hv, bind, Except.bind, pure, Except.pure, Except.ok.injEq,
    exists_eq_left']
  generalize w &&& ~~~(m <<< UInt64.ofNat e.start) ||| (v.toUInt64 &&& m) <<< UInt64.ofNat e.start = w' at *
  have hlow' : w'.toNat < 256 ^ (runBytes c src).length := by
    rw [← UInt64.toNat_toBitVec, hput, show 256 = 2 ^ 8 from rfl, ← Nat.pow_mul]
    refine toNat_put_lt hnarrow (by omega) ?_
    rwa [UInt64.toNat_toBitVec, Nat.pow_mul]
  generalize hn : (runBytes c src).length = n at *
  have hlen := length_wordBytes (n := n) (w := w')
  have hbytes := leNat_wordBytes (n := n) (w := w') h8
  rw [Nat.mod_eq_of_lt hlow'] at hbytes
  generalize hout : (if c.cell.bitsMsbFirst = true then (wordBytes n w').reverse else wordBytes n w') = out
  have hlength : out.length = n := by
    rw [← hout]
    split <;> simp [hlen]
  have hword' : wordOf (!c.cell.bitsMsbFirst) out = w'.toNat := by
    rw [← hout, ← hbytes, wordOf]
    cases c.cell.bitsMsbFirst <;> simp
  have hrun : runBytes (.mk { c.cell with parsed := false, bval := out } c.kids) src = out :=
    if_pos fun h0 : out = [] => by rw [h0] at hlength; simp at hlength; omega
  refine ⟨⟨rfl, rfl, by rw [hrun, hlength, hn]⟩, ?_, fun hkeep => ?_⟩
  · have hn8 : (runBytes (.mk { c.cell with parsed := false, bval := out } c.kids) src).length ≤ 8 := by rw [hrun]; omega
    obtain ⟨w₂, hw₂, hword₂⟩ := bitsWord_eq hn8 (by rw [hrun]; omega)
    rw [hrun] at hword₂
    have heq : w₂ = w' := UInt64.toNat_inj.1 (hword₂.trans hword')
    exact ⟨w₂, hw₂, by rw [heq, hput]⟩
  · rw [hrun]
    have hsame : w' = w := by rw [← UInt64.toBitVec_inj, hput, put_of_extract hnarrow hkeep]
    rw [hsame] at hout
    rw [← hout]
    rw [wordOf] at hword
    cases hm : c.cell.bitsMsbFirst <;> simp only [hm, Bool.not_true, Bool.not_false, Bool.false_eq_true, if_true, if_false] at hword ⊢
    · rw [← hn, wordBytes_leNat (by omega) hword]
    · have hlast : (runBytes c src).reverse.length ≤ 8 := by simp; omega
      have := wordBytes_leNat hlast hword
      rw [List.length_reverse, hn] at this
      rw [this, List.reverse_reverse]

end

end Bbq.Zcow
