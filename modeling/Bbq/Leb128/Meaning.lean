import Bbq.Leb128.Read

/-!
# What each decoder reads

Each loop is a fold over the encoding its input starts with. With `r` accumulated from the first `used`
bytes, what is read in the end is `r + 2 ^ shift * value g` for the rest `g` of the encoding.

* `decodeUleb128_eq`, `decodeSleb128_eq`: the CEK's loops read a number that fits, from bytes that are not
  too many.
* `Cpp.ulebCapture_eq`, `C.readUleb128_eq`, `C.readSleb128_eq`: so do these.
* `Cpp.slebCapture_eq`: what `sleb_capture` reads instead.
-/

namespace Bbq.Leb128

open Lib.Leb128

section

variable {c : Cursor} {byte : UInt8} {bits left shift used r : Nat} {bs : List UInt8}

/-! ## The CEK machine -/

theorem total_cons (hr : r < 2 ^ shift) (b : UInt8) (g : List UInt8) :
    (r ||| (b.toNat &&& 0x7f) <<< shift) + 2 ^ (shift + 7) * value g = r + 2 ^ shift * value (b :: g) := by
  rw [or_group hr, value_cons, Nat.pow_add, Nat.mul_add, show (2 : Nat) ^ 7 = 128 from rfl, Nat.mul_assoc,
    Nat.add_assoc]

theorem total_single (hr : r < 2 ^ shift) (hb : byte.toNat < 128) :
    r ||| (byte.toNat &&& 0x7f) <<< shift = r + 2 ^ shift * byte.toNat := by
  rw [or_group hr, Nat.mod_eq_of_lt hb]

/-- The groups below the last one do not decide a comparison. -/
theorem group_lt_iff {P a b : Nat} (hr : r < P) : r + P * b < P * a ↔ b < a := by
  constructor
  · intro h
    by_contra hb
    have := Nat.mul_le_mul_left P (Nat.le_of_not_lt hb)
    omega
  · intro h
    have := Nat.mul_le_mul_left P (Nat.succ_le_of_lt h)
    rw [Nat.succ_eq_add_one, Nat.mul_add, Nat.mul_one] at this
    omega

/-- Whether a number with its last group fits is decided by that group. -/
theorem fits_iff {avail b : Nat} (hr : r < 2 ^ shift) :
    r + 2 ^ shift * b < 2 ^ (shift + avail) ↔ b < 2 ^ avail := by
  rw [Nat.pow_add]
  exact group_lt_iff hr

/-- The bytes left before the last one are within the width. -/
theorem shift_lt (hused : shift = 7 * used) (hleft : used + (left + 1) = lebMaxBytes bits) :
    shift < bits ∧ (0 < left → shift + 7 < bits) ∧ (left = 0 → bits ≤ shift + 7) := by
  unfold lebMaxBytes at hleft
  omega

/-- The test `decode_uleb128` makes of a last byte. -/
theorem uleb_tail {b : Nat} (hb : b < 128) :
    (bits - shift < 7 ∧ b >>> (bits - shift) ≠ 0) ↔ ¬ b < 2 ^ (bits - shift) := by
  rw [Nat.shiftRight_eq_div_pow]
  by_cases h : b < 2 ^ (bits - shift)
  · simp [h, Nat.div_eq_of_lt h]
  · have hpos : 0 < 2 ^ (bits - shift) := Nat.pow_pos (by omega)
    have hdiv : 0 < b / 2 ^ (bits - shift) := Nat.div_pos (Nat.le_of_not_lt h) hpos
    have hlt : bits - shift < 7 := by
      by_contra hge
      have : 2 ^ 7 ≤ 2 ^ (bits - shift) := Nat.pow_le_pow_right (by omega) (by omega)
      omega
    simp only [h, hlt, not_false_eq_true, true_and, iff_true]
    omega

theorem ulebFrom_eq (hbits : bits ≤ 64) (hr : r < 2 ^ shift) (hused : shift = 7 * used)
    (hleft : used + left = lebMaxBytes bits) :
    ulebFrom bits left shift r used bs = (first bs).bind fun g =>
      if g.length ≤ left ∧ r + 2 ^ shift * value g < 2 ^ bits
      then some (r + 2 ^ shift * value g, used + g.length) else none := by
  induction left generalizing shift r used bs with
  | zero =>
    rcases hf : first bs with _ | g
    · rfl
    · simp [ulebFrom, first_ne_nil hf]
  | succ left ih =>
    obtain ⟨hlt, hmore, hlast⟩ := shift_lt hused hleft
    rcases bs with _ | ⟨b, bs⟩
    · rfl
    have hpow : (2 : Nat) ^ bits = 2 ^ (shift + (bits - shift)) := by rw [Nat.add_sub_cancel' hlt.le]
    simp only [ulebFrom]
    by_cases hb : b.toNat < 128
    · have hnot : ¬ 128 ≤ b.toNat := by omega
      have hvalue : value [b] = b.toNat := by
        rw [value_cons, value_nil, Nat.mod_eq_of_lt hb]
        omega
      rw [first_cons_last hb]
      simp only [Option.bind_some, List.length_singleton, hvalue, hnot, false_or, uleb_tail hb,
        total_single hr hb, hb, if_true, hpow, fits_iff hr]
      have hsmall : b.toNat < 2 ^ (bits - shift) → r + 2 ^ shift * b.toNat < 2 ^ 64 := fun hfit =>
        Nat.lt_of_lt_of_le ((fits_iff hr).2 hfit) (Nat.pow_le_pow_right (by omega) (by omega))
      by_cases h0 : left = 0
      · by_cases hfit : b.toNat < 2 ^ (bits - shift)
        · simpa [hfit] using hsmall hfit
        · simp [h0, hfit]
      · have h7 : 2 ^ 7 ≤ 2 ^ (bits - shift) :=
          Nat.pow_le_pow_right (by omega) (by have := hmore (by omega); omega)
        have hfit : b.toNat < 2 ^ (bits - shift) := by omega
        simpa [h0, hfit] using hsmall hfit
    · have hge : 128 ≤ b.toNat := by omega
      rw [first_cons_more hge]
      by_cases h0 : left = 0
      · subst h0
        rcases hf : first bs with _ | g
        · simp [hge]
        · simp [hge, show g ≠ [] from first_ne_nil hf]
      · have hnot : ¬ (left = 0 ∧ (128 ≤ b.toNat ∨ bits - shift < 7 ∧ b.toNat >>> (bits - shift) ≠ 0)) :=
          fun h => h0 h.1
        rw [if_neg hnot, if_neg hb]
        rw [ih (by rw [or_group hr]; exact or_group_lt hr _) (show shift + 7 = 7 * (used + 1) by omega) (by omega)]
        rcases hf : first bs with _ | g
        · rfl
        · simp only [Option.bind_some, Option.map_some, total_cons hr, List.length_cons]
          simp only [Nat.add_le_add_iff_right, Nat.add_assoc, Nat.add_comm 1]

/-- What a signed encoding is read as after `r`. -/
def signedFrom (r shift : Nat) (g : List UInt8) : Int :=
  ((r + 2 ^ shift * value g : Nat) : Int).bmod (2 ^ (shift + 7 * g.length))

/-- In the range of a width. -/
def InRange (bits : Nat) (v : Int) : Prop := -2 ^ (bits - 1) ≤ v ∧ v < 2 ^ (bits - 1)

instance : DecidablePred (InRange bits) := fun _ => inferInstanceAs (Decidable (_ ∧ _))

theorem signedFrom_zero (g : List UInt8) : signedFrom 0 0 g = signed g := by
  rw [signedFrom, signed, Nat.zero_add, Nat.pow_zero, Nat.one_mul, Nat.zero_add, Nat.pow_mul]

theorem signedFrom_cons (hr : r < 2 ^ shift) (b : UInt8) (g : List UInt8) :
    signedFrom (r ||| (b.toNat &&& 0x7f) <<< shift) (shift + 7) g = signedFrom r shift (b :: g) := by
  rw [signedFrom, signedFrom, total_cons hr, List.length_cons, Nat.mul_add, Nat.mul_one, Nat.add_assoc,
    Nat.add_comm 7]

theorem signedFrom_single (hr : r < 2 ^ shift) (hb : byte.toNat < 128) :
    signedFrom r shift [byte] =
      if 64 ≤ byte.toNat then ((r + 2 ^ shift * byte.toNat : Nat) : Int) - 2 ^ (shift + 7)
      else ((r + 2 ^ shift * byte.toNat : Nat) : Int) := by
  have hlt : r + 2 ^ shift * byte.toNat < 2 ^ (shift + 7) := (fits_iff hr).2 hb
  have hhalf : r + 2 ^ shift * byte.toNat < 2 ^ (shift + 6) ↔ byte.toNat < 64 := fits_iff hr
  have hpow : (2 : Nat) ^ (shift + 7) = 2 * 2 ^ (shift + 6) := by rw [Nat.pow_succ, Nat.mul_comm]
  have hcast : (2 : Int) ^ (shift + 7) = ((2 ^ (shift + 7) : Nat) : Int) := by push_cast; rfl
  rw [signedFrom, value_cons, value_nil, Nat.mod_eq_of_lt hb, Nat.mul_zero, Nat.add_zero,
    List.length_singleton, Nat.mul_one, Int.bmod_def, hcast, hpow]
  rw [hpow] at hlt
  generalize r + 2 ^ shift * byte.toNat = x at *
  generalize 2 ^ (shift + 6) = M at *
  rw [Int.emod_eq_of_lt (by omega) (by omega)]
  split <;> split <;> omega

/-- The range, by the last group. -/
theorem inRange_single (avail : Nat) (hr : r < 2 ^ shift) (hb : byte.toNat < 128) :
    InRange (shift + (avail + 1)) (signedFrom r shift [byte]) ↔
      byte.toNat < 64 ∧ byte.toNat < 2 ^ avail ∨ 64 ≤ byte.toNat ∧ 128 ≤ byte.toNat + 2 ^ avail := by
  have hlo : r + 2 ^ shift * byte.toNat < 2 ^ shift * 2 ^ avail ↔ byte.toNat < 2 ^ avail := group_lt_iff hr
  have hhi : r + 2 ^ shift * (byte.toNat + 2 ^ avail) < 2 ^ shift * 128 ↔ byte.toNat + 2 ^ avail < 128 :=
    group_lt_iff hr
  have hlt : r + 2 ^ shift * byte.toNat < 2 ^ shift * 128 ↔ byte.toNat < 128 := group_lt_iff hr
  rw [InRange, signedFrom_single hr hb, show shift + (avail + 1) - 1 = shift + avail by omega,
    show (2 : Int) ^ (shift + avail) = ((2 ^ shift * 2 ^ avail : Nat) : Int) by push_cast; rw [pow_add],
    show (2 : Int) ^ (shift + 7) = ((2 ^ shift * 128 : Nat) : Int) by push_cast; rw [pow_add]; rfl]
  rw [Nat.mul_add] at hhi
  generalize 2 ^ shift * byte.toNat = x at *
  generalize 2 ^ shift * 2 ^ avail = y at *
  generalize 2 ^ shift * 128 = z at *
  by_cases h64 : 64 ≤ byte.toNat
  · rw [if_pos h64]
    omega
  · rw [if_neg h64]
    omega

/-- The test `decode_sleb128` makes of a last byte. -/
theorem sleb_tail : ∀ avail < 7, ∀ b < 128,
    slebTailOk (avail + 1) b = true ↔ b < 64 ∧ b < 2 ^ avail ∨ 64 ≤ b ∧ 128 ≤ b + 2 ^ avail := by
  decide +kernel

/-- Without a sign extension, what it would have set is lost in 64 bits. -/
theorem ofInt_signedFrom (hr : r < 2 ^ shift) (hb : byte.toNat < 128) :
    Int64.ofInt (if shift + 7 < 64 ∧ byte.toNat.testBit 6 = true
      then ((r + 2 ^ shift * byte.toNat : Nat) : Int) - 2 ^ (shift + 7)
      else ((r + 2 ^ shift * byte.toNat : Nat) : Int)) = .ofInt (signedFrom r shift [byte]) := by
  rw [signedFrom_single hr hb]
  simp only [testBit_six hb]
  by_cases h64 : 64 ≤ byte.toNat
  · by_cases hs : shift + 7 < 64
    · simp [h64, hs]
    · obtain ⟨k, hk⟩ : ∃ k, shift + 7 = 64 + k := ⟨shift + 7 - 64, by omega⟩
      have hpow : (2 : Int) ^ (shift + 7) = Int64.size * 2 ^ k := by rw [hk, pow_add]; rfl
      rw [if_neg fun h => hs h.1, if_pos h64, ← Int64.toInt_inj, Int64.toInt_ofInt, Int64.toInt_ofInt, hpow,
        Int.sub_mul_bmod_self_left]
  · simp [h64]

theorem slebFrom_eq (hr : r < 2 ^ shift) (hused : shift = 7 * used)
    (hleft : used + left = lebMaxBytes bits) :
    slebFrom bits left shift r used bs = (first bs).bind fun g =>
      if g.length ≤ left ∧ InRange bits (signedFrom r shift g)
      then some (.ofInt (signedFrom r shift g), used + g.length) else none := by
  induction left generalizing shift r used bs with
  | zero =>
    rcases hf : first bs with _ | g
    · rfl
    · simp [slebFrom, first_ne_nil hf]
  | succ left ih =>
    obtain ⟨hlt, hmore, hlast⟩ := shift_lt hused hleft
    rcases bs with _ | ⟨b, bs⟩
    · rfl
    obtain ⟨avail, havail⟩ : ∃ avail, bits = shift + (avail + 1) := ⟨bits - shift - 1, by omega⟩
    have hsub : bits - shift = avail + 1 := by omega
    simp only [slebFrom, hsub]
    by_cases hb : b.toNat < 128
    · have hnot : ¬ 128 ≤ b.toNat := by omega
      have hrange := inRange_single avail hr hb
      rw [first_cons_last hb]
      simp only [Option.bind_some, List.length_singleton, hnot, false_or, hb, if_true, total_single hr hb,
        ofInt_signedFrom hr hb, havail, hrange]
      by_cases h0 : left = 0
      · have htail := sleb_tail avail (by omega) b.toNat hb
        by_cases hok : slebTailOk (avail + 1) b.toNat = true
        · simp [h0, hok, htail.1 hok]
        · have hbad : ¬ (b.toNat < 64 ∧ b.toNat < 2 ^ avail ∨ 64 ≤ b.toNat ∧ 128 ≤ b.toNat + 2 ^ avail) :=
            fun h => hok (htail.2 h)
          rw [if_pos ⟨h0, by simpa using hok⟩, if_neg fun h => hbad h.2]
      · have h7 : 2 ^ 7 ≤ 2 ^ avail := Nat.pow_le_pow_right (by omega) (by have := hmore (by omega); omega)
        rw [if_neg fun h => h0 h.1, if_pos ⟨by omega, by omega⟩]
    · have hge : 128 ≤ b.toNat := by omega
      rw [first_cons_more hge]
      by_cases h0 : left = 0
      · subst h0
        rcases hf : first bs with _ | g
        · simp [hge]
        · simp [hge, show g ≠ [] from first_ne_nil hf]
      · have hnot : ¬ (left = 0 ∧ (128 ≤ b.toNat ∨ slebTailOk (avail + 1) b.toNat = false)) :=
          fun h => h0 h.1
        rw [if_neg hnot, if_neg hb]
        rw [ih (by rw [or_group hr]; exact or_group_lt hr _) (show shift + 7 = 7 * (used + 1) by omega) (by omega)]
        rcases hf : first bs with _ | g
        · rfl
        · simp only [Option.bind_some, Option.map_some, signedFrom_cons hr, List.length_cons]
          simp only [Nat.add_le_add_iff_right, Nat.add_assoc, Nat.add_comm 1]

/-! ## The same on machine words -/

theorem avail_toNat {avail : Nat} (h : avail < 7) : byte >>> UInt8.ofNat avail = 0 ↔ byte.toNat >>> avail = 0 := by
  have hmod : (UInt8.ofNat avail).toNat % 8 = avail := by
    rw [UInt8.toNat_ofNat']
    omega
  rw [← UInt8.toNat_inj, UInt8.toNat_shiftRight, hmod]
  rfl

/-- The test of a last byte of an unsigned encoding. -/
theorem uleb_test {avail : Nat} :
    (byte &&& 0x80 ≠ 0 ∨ avail < 7 ∧ byte >>> UInt8.ofNat avail ≠ 0) ↔
      128 ≤ byte.toNat ∨ avail < 7 ∧ byte.toNat >>> avail ≠ 0 := by
  rw [ne_eq, more_iff, Nat.not_lt]
  refine or_congr_right ⟨?_, ?_⟩
  · rintro ⟨h, hne⟩
    exact ⟨h, fun h0 => hne ((avail_toNat h).2 h0)⟩
  · rintro ⟨h, hne⟩
    exact ⟨h, fun h0 => hne ((avail_toNat h).1 h0)⟩

theorem Cpp.ulebFrom_eq {result : UInt64} {i : Nat} (hres : result.toNat = r % 2 ^ 64)
    (hs : shift + 7 * left ≤ 70) :
    (Cpp.ulebFrom c bits left i shift result).map (fun x => (x.1.toNat, x.2)) =
      (Bbq.ulebFrom bits left shift r i (c.skip i).rest).map fun x => (x.1, c.pos + x.2) := by
  induction left generalizing i shift result r with
  | zero => rfl
  | succ left ih =>
    by_cases hin : c.pos + i ≥ c.stop
    · rw [Cursor.rest_nil hin, Cpp.ulebFrom, if_pos hin]
      rfl
    · rw [Cursor.rest_cons (by omega), Cpp.ulebFrom, if_neg hin]
      simp only [Bbq.ulebFrom, uleb_test, more_iff]
      have hnext := toNat_or_group (c.byteAt (c.pos + i)) hres (show shift < 64 by omega)
      split
      · rfl
      · split
        · simp only [Option.map_some, Option.some.injEq, Prod.mk.injEq]
          exact ⟨hnext, Nat.add_assoc _ _ _⟩
        · exact ih hnext (by omega)

theorem C.readUlebFrom_eq {result : UInt64} {i : Nat} (hres : result.toNat = r % 2 ^ 64)
    (hs : shift + 7 * left ≤ 70) :
    (C.readUlebFrom bits left shift result (c.skip i)).map (fun x => (x.1.toNat, x.2.pos)) =
      (Bbq.ulebFrom bits left shift r i (c.skip i).rest).map fun x => (x.1, c.pos + x.2) := by
  induction left generalizing i shift result r with
  | zero => rfl
  | succ left ih =>
    by_cases hin : c.pos + i ≥ c.stop
    · rw [Cursor.rest_nil hin, C.readUlebFrom, readU8_nil hin]
      rfl
    · rw [Cursor.rest_cons (by omega), C.readUlebFrom, readU8_cons (by omega)]
      simp only [Bbq.ulebFrom, uleb_test, more_iff]
      have hnext := toNat_or_group (c.byteAt (c.pos + i)) hres (show shift < 64 by omega)
      split
      · rfl
      · split
        · simp only [Option.map_some, Option.some.injEq, Prod.mk.injEq]
          exact ⟨hnext, rfl⟩
        · exact ih hnext (by omega)

/-! ### Sign extension -/

theorem toInt64_eq (x : UInt64) : x.toInt64 = .ofInt x.toNat := by
  rw [← Int64.toBitVec_inj]
  simp [BitVec.ofInt_natCast]

theorem toNat_mask {s : Nat} (hs : s < 64) : (~~~(0 : UInt64) <<< UInt64.ofNat s).toNat = 2 ^ 64 - 2 ^ s := by
  have hmod : (UInt64.ofNat s).toNat % 64 = s := by
    rw [UInt64.toNat_ofNat']
    omega
  have hpos : 0 < 2 ^ s := Nat.pow_pos (by omega)
  have hle : 2 ^ s ≤ 2 ^ 63 := Nat.pow_le_pow_right (by omega) (by omega)
  have hones : (~~~(0 : UInt64)).toNat = 2 ^ 64 - 1 := rfl
  rw [UInt64.toNat_shiftLeft, hmod, hones, Nat.shiftLeft_eq]
  omega

theorem neg_one_shift {s : Nat} (hs : s < 64) :
    -((1 : UInt64) <<< UInt64.ofNat s) = ~~~(0 : UInt64) <<< UInt64.ofNat s := by
  have hmod : (UInt64.ofNat s).toNat % 64 = s := by
    rw [UInt64.toNat_ofNat']
    omega
  have hpos : 0 < 2 ^ s := Nat.pow_pos (by omega)
  have hle : 2 ^ s ≤ 2 ^ 63 := Nat.pow_le_pow_right (by omega) (by omega)
  have hone : (1 : UInt64).toNat = 1 := rfl
  rw [← UInt64.toNat_inj, toNat_mask hs, UInt64.toNat_neg, UInt64.toNat_shiftLeft, hmod, hone, Nat.shiftLeft_eq,
    Nat.one_mul, show UInt64.size = 2 ^ 64 from rfl]
  generalize 2 ^ s = M at *
  omega

theorem extend_eq {x : UInt64} {s : Nat} (hs : s < 64) (hx : x.toNat < 2 ^ s) :
    (x ||| ~~~(0 : UInt64) <<< UInt64.ofNat s).toInt64 = .ofInt ((x.toNat : Int) - 2 ^ s) := by
  have hmask : 2 ^ 64 - 2 ^ s = 2 ^ s * (2 ^ (64 - s) - 1) := by
    rw [Nat.mul_sub, ← Nat.pow_add, Nat.mul_one, Nat.add_sub_cancel' hs.le]
  have hle : (2 : Nat) ^ s ≤ 2 ^ 64 := Nat.pow_le_pow_right (by omega) (by omega)
  rw [toInt64_eq, UInt64.toNat_or, toNat_mask hs, hmask, Nat.or_comm, ← Nat.two_pow_add_eq_or_of_lt hx,
    ← hmask, ← Int64.toInt_inj, Int64.toInt_ofInt, Int64.toInt_ofInt]
  have hcast : ((2 ^ 64 - 2 ^ s + x.toNat : Nat) : Int) = (x.toNat : Int) - 2 ^ s + (Int64.size : Nat) * 1 := by
    rw [show (2 : Int) ^ s = ((2 ^ s : Nat) : Int) by push_cast; rfl, show Int64.size = 2 ^ 64 from rfl]
    generalize 2 ^ s = M at *
    omega
  rw [hcast, Int.add_mul_bmod_self_left]

/-- The value of an encoding that ends in `byte`, after `r`. -/
theorem value_read (byte : UInt8) {result : UInt64} (hres : result.toNat = r % 2 ^ 64) (hr : r < 2 ^ shift)
    (hs : shift < 64) {width : Nat} (hw : width ≤ 64) :
    (if shift + 7 < width ∧ byte &&& 0x40 ≠ 0
      then (result ||| (byte &&& 0x7f).toUInt64 <<< UInt64.ofNat shift) |||
        ~~~(0 : UInt64) <<< UInt64.ofNat (shift + 7)
      else result ||| (byte &&& 0x7f).toUInt64 <<< UInt64.ofNat shift).toInt64 =
    .ofInt (if shift + 7 < width ∧ byte.toNat.testBit 6 = true
      then ((r ||| (byte.toNat &&& 0x7f) <<< shift : Nat) : Int) - 2 ^ (shift + 7)
      else ((r ||| (byte.toNat &&& 0x7f) <<< shift : Nat) : Int)) := by
  have hnext := toNat_or_group byte hres hs
  have hlt : r ||| (byte.toNat &&& 0x7f) <<< shift < 2 ^ (shift + 7) := by
    rw [or_group hr]
    exact or_group_lt hr _
  simp only [sign_iff]
  generalize result ||| (byte &&& 0x7f).toUInt64 <<< UInt64.ofNat shift = x at *
  generalize r ||| (byte.toNat &&& 0x7f) <<< shift = t at *
  by_cases hext : shift + 7 < width ∧ byte.toNat.testBit 6 = true
  · have hs' : shift + 7 < 64 := by omega
    have hle : 2 ^ (shift + 7) ≤ 2 ^ 64 := Nat.pow_le_pow_right (by omega) (by omega)
    have hx : x.toNat = t := by rw [hnext, Nat.mod_eq_of_lt (by omega)]
    rw [if_pos hext, if_pos hext, extend_eq hs' (by rw [hx]; exact hlt), hx]
  · rw [if_neg hext, if_neg hext, toInt64_eq, hnext, ← Int64.toInt_inj, Int64.toInt_ofInt, Int64.toInt_ofInt]
    push_cast
    exact Int.emod_bmod _ _

theorem sleb_test : ∀ avail < 7, ∀ b < 256,
    C.slebOverwide (UInt8.ofNat b) (avail + 1) = !slebTailOk (avail + 1) b := by
  decide +kernel

theorem C.readSlebFrom_eq {result : UInt64} {i : Nat} (hbits : bits ≤ 64) (hres : result.toNat = r % 2 ^ 64)
    (hr : r < 2 ^ shift) (hused : shift = 7 * i) (hleft : i + left = lebMaxBytes bits) :
    (C.readSlebFrom bits left shift result (c.skip i)).map (fun x => (x.1, x.2.pos)) =
      (Bbq.slebFrom bits left shift r i (c.skip i).rest).map fun x => (x.1, c.pos + x.2) := by
  induction left generalizing i shift result r with
  | zero => rfl
  | succ left ih =>
    obtain ⟨hlt, hmore, hlast⟩ := shift_lt hused hleft
    by_cases hin : c.pos + i ≥ c.stop
    · rw [Cursor.rest_nil hin, C.readSlebFrom, readU8_nil hin]
      rfl
    · rw [Cursor.rest_cons (by omega), C.readSlebFrom, readU8_cons (by omega)]
      generalize c.byteAt (c.pos + i) = b
      have hnext := toNat_or_group b hres (show shift < 64 by omega)
      have htest : (left = 0 ∧ (b &&& 0x80 ≠ 0 ∨ C.slebOverwide b (bits - shift) = true)) ↔
          left = 0 ∧ (128 ≤ b.toNat ∨ slebTailOk (bits - shift) b.toNat = false) := by
        refine and_congr_right fun h0 => ?_
        obtain ⟨avail, havail⟩ : ∃ avail, bits - shift = avail + 1 := ⟨bits - shift - 1, by omega⟩
        have h := sleb_test avail (by omega) b.toNat b.toNat_lt
        rw [UInt8.ofNat_toNat] at h
        rw [havail, h, ne_eq, more_iff, Nat.not_lt, Bool.not_eq_true']
      simp only [Bbq.slebFrom, htest, more_iff]
      split
      · rfl
      · split
        · simp only [Option.map_some, Option.some.injEq, Prod.mk.injEq]
          exact ⟨value_read b hres hr (by omega) (Nat.le_refl 64), rfl⟩
        · refine ih hnext ?_ (by omega) (by omega)
          rw [or_group hr]
          exact or_group_lt hr _

/-- What `sleb_capture` makes of an encoding after `r`: it extends the sign only below the width. -/
def capturedFrom (bits r shift : Nat) (g : List UInt8) : Int64 :=
  .ofInt (if shift + 7 * g.length < bits then signedFrom r shift g else (r + 2 ^ shift * value g : Nat))

theorem capturedFrom_cons (hr : r < 2 ^ shift) (b : UInt8) (g : List UInt8) :
    capturedFrom bits (r ||| (b.toNat &&& 0x7f) <<< shift) (shift + 7) g = capturedFrom bits r shift (b :: g) := by
  have hlen : shift + 7 + 7 * g.length = shift + 7 * (b :: g).length := by
    rw [List.length_cons]
    omega
  rw [capturedFrom, capturedFrom, signedFrom_cons hr, total_cons hr, hlen]

theorem Cpp.slebFrom_eq {result : UInt64} {i : Nat} (hbits : bits ≤ 64) (hres : result.toNat = r % 2 ^ 64)
    (hr : r < 2 ^ shift) (hused : shift = 7 * i) (hleft : i + left = lebMaxBytes bits) :
    Cpp.slebFrom c bits left i shift result = (first (c.skip i).rest).bind fun g =>
      if g.length ≤ left then some (capturedFrom bits r shift g, c.pos + (i + g.length)) else none := by
  induction left generalizing i shift result r with
  | zero =>
    rcases hf : first (c.skip i).rest with _ | g
    · rfl
    · simp [Cpp.slebFrom, first_ne_nil hf]
  | succ left ih =>
    obtain ⟨hlt, hmore, hlast⟩ := shift_lt hused hleft
    by_cases hin : c.pos + i ≥ c.stop
    · rw [Cursor.rest_nil hin, Cpp.slebFrom, if_pos hin]
      rfl
    · rw [Cursor.rest_cons (by omega), Cpp.slebFrom, if_neg hin]
      generalize c.byteAt (c.pos + i) = b
      have hnext := toNat_or_group b hres (show shift < 64 by omega)
      simp only [more_iff, ne_eq]
      by_cases hb : b.toNat < 128
      · have hread := value_read b hres hr (by omega) hbits
        have hone : capturedFrom bits r shift [b] =
            .ofInt (if shift + 7 < bits ∧ b.toNat.testBit 6 = true
              then ((r ||| (b.toNat &&& 0x7f) <<< shift : Nat) : Int) - 2 ^ (shift + 7)
              else ((r ||| (b.toNat &&& 0x7f) <<< shift : Nat) : Int)) := by
          have hvalue : value [b] = b.toNat := by
            rw [value_cons, value_nil, Nat.mod_eq_of_lt hb, Nat.mul_zero, Nat.add_zero]
          rw [capturedFrom, signedFrom_single hr hb, hvalue, total_single hr hb, List.length_singleton]
          simp only [testBit_six hb]
          by_cases hw : shift + 7 < bits
          · simp [hw]
          · simp [hw]
        rw [if_neg fun h => h.2 hb, if_pos hb, first_cons_last hb, Option.bind_some, List.length_singleton,
          if_pos (show 1 ≤ left + 1 by omega), hone, ← hread]
        by_cases hext : shift + 7 < bits ∧ b &&& 0x40 ≠ 0
        · rw [if_pos hext, if_pos hext, neg_one_shift (by omega)]
          rfl
        · rw [if_neg hext, if_neg hext]
          rfl
      · rw [first_cons_more (by omega), if_neg hb]
        by_cases h0 : left = 0
        · subst h0
          rcases hf : first (c.skip (i + 1)).rest with _ | g
          · simp [hb]
          · simp [hb, show g ≠ [] from first_ne_nil hf]
        · rw [if_neg fun h => h0 h.1, ih hnext (by rw [or_group hr]; exact or_group_lt hr _) (by omega) (by omega)]
          rcases hf : first (c.skip (i + 1)).rest with _ | g
          · rfl
          · simp only [Option.bind_some, Option.map_some, capturedFrom_cons hr, List.length_cons]
            simp only [Nat.add_le_add_iff_right, Nat.add_assoc, Nat.add_comm 1]

/-! ## Whole encodings -/

theorem decodeUleb128_eq (hbits : bits ≤ 64) :
    decodeUleb128 bits bs = (first bs).bind fun g =>
      if g.length ≤ lebMaxBytes bits ∧ value g < 2 ^ bits then some (value g, g.length) else none := by
  have h : ulebFrom bits (lebMaxBytes bits) 0 0 0 bs = _ :=
    ulebFrom_eq hbits (by simp) (by simp) (Nat.zero_add _)
  rw [decodeUleb128]
  simpa only [Nat.pow_zero, Nat.one_mul, Nat.zero_add] using h

theorem decodeSleb128_eq :
    decodeSleb128 bits bs = (first bs).bind fun g =>
      if g.length ≤ lebMaxBytes bits ∧ InRange bits (signed g) then some (.ofInt (signed g), g.length)
      else none := by
  have h : slebFrom bits (lebMaxBytes bits) 0 0 0 bs = _ := slebFrom_eq (by simp) (by simp) (Nat.zero_add _)
  rw [decodeSleb128]
  simpa only [signedFrom_zero, Nat.zero_add] using h

theorem Cpp.ulebCapture_eq (hbits : 7 * lebMaxBytes bits ≤ 70) :
    (Cpp.ulebCapture c bits).map (fun x => (x.1.toNat, x.2)) =
      (decodeUleb128 bits c.rest).map fun x => (x.1, c.pos + x.2) :=
  Cpp.ulebFrom_eq rfl (by rw [Nat.zero_add]; exact hbits)

theorem C.readUleb128_eq (hbits : 7 * lebMaxBytes bits ≤ 70) :
    (C.readUleb128 c bits).map (fun x => (x.1.toNat, x.2.pos)) =
      (decodeUleb128 bits c.rest).map fun x => (x.1, c.pos + x.2) := by
  have h : (C.readUlebFrom bits (lebMaxBytes bits) 0 0 (c.skip 0)).map (fun x => (x.1.toNat, x.2.pos)) = _ :=
    C.readUlebFrom_eq (r := 0) rfl (by rw [Nat.zero_add]; exact hbits)
  exact h

theorem C.readSleb128_eq (hbits : bits ≤ 64) :
    (C.readSleb128 c bits).map (fun x => (x.1, x.2.pos)) =
      (decodeSleb128 bits c.rest).map fun x => (x.1, c.pos + x.2) := by
  have h : (C.readSlebFrom bits (lebMaxBytes bits) 0 0 (c.skip 0)).map (fun x => (x.1, x.2.pos)) = _ :=
    C.readSlebFrom_eq (r := 0) hbits rfl (by simp) (by simp) (Nat.zero_add _)
  exact h

/-- `sleb_capture` takes any encoding short enough. -/
theorem Cpp.slebCapture_eq (hbits : bits ≤ 64) :
    Cpp.slebCapture c bits = (first c.rest).bind fun g =>
      if g.length ≤ lebMaxBytes bits
      then some (.ofInt (if 7 * g.length < bits then signed g else value g), c.pos + g.length) else none := by
  have h : Cpp.slebFrom c bits (lebMaxBytes bits) 0 0 0 = _ :=
    Cpp.slebFrom_eq (r := 0) hbits rfl (by simp) (by simp) (Nat.zero_add _)
  rw [Cpp.slebCapture]
  simpa only [capturedFrom, signedFrom_zero, Nat.pow_zero, Nat.one_mul, Nat.zero_add, Cursor.skip_zero] using h

end

end Bbq.Leb128
