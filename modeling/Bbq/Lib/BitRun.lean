import Mathlib.Algebra.Ring.Int.Defs
import Mathlib.Algebra.Ring.Nat
import Mathlib.Data.Int.Order.Basic

/-!
# Runs of bits in a word

Shift-and-mask access to `n` bits of a word from bit `s` on, against `BitVec.extractLsb'`: what `field` reads, what
`put` changes, and the sign extension of a value that was masked out (`extended_toInt`).
-/

namespace Bbq.Lib.BitRun

section

variable {w s n s' n' : Nat} {x v : BitVec w}

/-! ## Reading and writing -/

/-- The `n` low bits set. -/
def mask (w n : Nat) : BitVec w := 1#w <<< n - 1#w

/-- The run of `n` bits from bit `s` on, in the low bits. -/
def field (x : BitVec w) (s n : Nat) : BitVec w := x >>> s &&& mask w n

/-- The word with the run of `n` bits from bit `s` on taken from the low bits of `v`. -/
def put (x : BitVec w) (s n : Nat) (v : BitVec w) : BitVec w :=
  x &&& ~~~(mask w n <<< s) ||| (v &&& mask w n) <<< s

theorem toNat_mask (hn : n < w) : (mask w n).toNat = 2 ^ n - 1 := by
  have hlt : 2 ^ n < 2 ^ w := Nat.pow_lt_pow_right (by omega) hn
  have hpos : 0 < 2 ^ n := Nat.pow_pos (by omega)
  have hone : 1 % 2 ^ w = 1 := Nat.mod_eq_of_lt (by omega)
  rw [mask, BitVec.toNat_sub, BitVec.toNat_shiftLeft, BitVec.toNat_ofNat, hone, Nat.shiftLeft_eq, Nat.one_mul,
    Nat.mod_eq_of_lt hlt, show 2 ^ w - 1 + 2 ^ n = 2 ^ n - 1 + 2 ^ w by omega, Nat.add_mod_right,
    Nat.mod_eq_of_lt (by omega)]

theorem getLsbD_mask (hn : n < w) (i : Nat) : (mask w n).getLsbD i = decide (i < n) := by
  rw [← BitVec.testBit_toNat, toNat_mask hn, Nat.testBit_two_pow_sub_one]

theorem getLsbD_field (hn : n < w) (i : Nat) : (field x s n).getLsbD i = (decide (i < n) && x.getLsbD (s + i)) := by
  rw [field, BitVec.getLsbD_and, BitVec.getLsbD_ushiftRight, getLsbD_mask hn, Bool.and_comm]

theorem field_eq (hn : n < w) : field x s n = (x.extractLsb' s n).setWidth w := by
  refine BitVec.eq_of_getLsbD_eq fun i hi => ?_
  rw [getLsbD_field hn, BitVec.getLsbD_setWidth, BitVec.getLsbD_extractLsb']
  simp [hi]

theorem getLsbD_put (hn : n < w) (i : Nat) (hi : i < w) :
    (put x s n v).getLsbD i = if s ≤ i ∧ i < s + n then v.getLsbD (i - s) else x.getLsbD i := by
  simp only [put, BitVec.getLsbD_or, BitVec.getLsbD_and, BitVec.getLsbD_not, BitVec.getLsbD_shiftLeft,
    getLsbD_mask hn, hi]
  by_cases hs : i < s
  · simp [hs, show ¬ s ≤ i by omega]
  · by_cases hin : i < s + n
    · simp [hs, show s ≤ i by omega, hin, show i - s < n by omega]
    · simp [hs, hin, show ¬ i - s < n by omega]

/-- A run below bit `k` leaves the word below 2 ^ k. -/
theorem toNat_put_lt {k : Nat} (hn : n < w) (hk : s + n ≤ k) (hx : x.toNat < 2 ^ k) : (put x s n v).toNat < 2 ^ k := by
  refine Nat.lt_pow_two_of_testBit _ fun i hi => ?_
  rw [BitVec.testBit_toNat]
  by_cases hw : i < w
  · rw [getLsbD_put hn i hw, if_neg (by omega), ← BitVec.testBit_toNat]
    exact Nat.testBit_lt_two_pow (Nat.lt_of_lt_of_le hx (Nat.pow_le_pow_right (by omega) hi))
  · exact BitVec.getLsbD_of_ge _ _ (by omega)

/-- What was put is there, cut to the run. -/
theorem extract_put (hn : n < w) (hs : s + n ≤ w) : (put x s n v).extractLsb' s n = v.setWidth n := by
  refine BitVec.eq_of_getLsbD_eq fun i hi => ?_
  rw [BitVec.getLsbD_extractLsb', BitVec.getLsbD_setWidth, getLsbD_put hn _ (by omega)]
  simp [hi, show s + i - s = i by omega]

/-- Another run is as it was. -/
theorem extract_put_of_disjoint (hn : n < w) (hd : s + n ≤ s' ∨ s' + n' ≤ s) :
    (put x s n v).extractLsb' s' n' = x.extractLsb' s' n' := by
  refine BitVec.eq_of_getLsbD_eq fun i hi => ?_
  rw [BitVec.getLsbD_extractLsb', BitVec.getLsbD_extractLsb']
  by_cases hw : s' + i < w
  · rw [getLsbD_put hn _ hw, if_neg (by omega)]
  · rw [BitVec.getLsbD_of_ge _ _ (by omega), BitVec.getLsbD_of_ge _ _ (by omega)]

/-- Putting back what is there changes nothing. -/
theorem put_of_extract (hn : n < w) (h : v.setWidth n = x.extractLsb' s n) : put x s n v = x := by
  refine BitVec.eq_of_getLsbD_eq fun i hi => ?_
  rw [getLsbD_put hn i hi]
  split
  · rename_i hin
    have hbit := congrArg (fun b : BitVec n => b.getLsbD (i - s)) h
    simp only [BitVec.getLsbD_setWidth, BitVec.getLsbD_extractLsb', show i - s < n by omega, decide_true,
      Bool.true_and, show s + (i - s) = i by omega] at hbit
    exact hbit
  · rfl

/-- A run read by an arithmetic shift. -/
theorem and_sshiftRight_eq (hn : n < w) (hs : s + n ≤ w) :
    x.sshiftRight s &&& mask w n = (x.extractLsb' s n).setWidth w := by
  refine BitVec.eq_of_getLsbD_eq fun i hi => ?_
  rw [BitVec.getLsbD_and, getLsbD_mask hn, BitVec.getLsbD_sshiftRight, BitVec.getLsbD_setWidth,
    BitVec.getLsbD_extractLsb']
  by_cases hin : i < n
  · simp [hi, hin, show s + i < w by omega]
  · simp [hin]

/-- A run is one of the low bits, wherever they end above it. -/
theorem extract_setWidth {k : Nat} (hk : s + n ≤ k) : (x.setWidth k).extractLsb' s n = x.extractLsb' s n := by
  refine BitVec.eq_of_getLsbD_eq fun i hi => ?_
  rw [BitVec.getLsbD_extractLsb', BitVec.getLsbD_extractLsb', BitVec.getLsbD_setWidth]
  simp [show s + i < k by omega]

theorem setWidth_ofInt {k : Nat} (hk : k ≤ w) (a : Int) : (BitVec.ofInt w a).setWidth k = BitVec.ofInt k a := by
  have hdvd : ((2 ^ k : Nat) : Int) ∣ ((2 ^ w : Nat) : Int) := Int.natCast_dvd_natCast.2 (Nat.pow_dvd_pow 2 hk)
  have hmod := Int.emod_emod_of_dvd a hdvd
  have hw : ((2 ^ w : Nat) : Int) ≠ 0 := Int.natCast_ne_zero.2 (Nat.ne_of_gt (Nat.two_pow_pos _))
  have hk : ((2 ^ k : Nat) : Int) ≠ 0 := Int.natCast_ne_zero.2 (Nat.ne_of_gt (Nat.two_pow_pos _))
  refine BitVec.eq_of_toNat_eq (Int.ofNat.inj ?_)
  rw [BitVec.toNat_setWidth, BitVec.toNat_ofInt, BitVec.toNat_ofInt]
  show (((a % (2 ^ w : Nat)).toNat % 2 ^ k : Nat) : Int) = ((a % (2 ^ k : Nat)).toNat : Int)
  rw [Int.natCast_emod, Int.toNat_of_nonneg (Int.emod_nonneg _ hw), Int.toNat_of_nonneg (Int.emod_nonneg _ hk), hmod]

/-- A run of a number depends on the number's low bits. -/
theorem extract_ofInt_congr {k : Nat} {a b : Int} (hk : k ≤ w) (hs : s + n ≤ k) (h : a % (2 ^ k : Nat) = b % (2 ^ k : Nat)) :
    (BitVec.ofInt w a).extractLsb' s n = (BitVec.ofInt w b).extractLsb' s n := by
  rw [← extract_setWidth hs, ← extract_setWidth (x := BitVec.ofInt w b) hs, setWidth_ofInt hk, setWidth_ofInt hk]
  refine congrArg _ (BitVec.eq_of_toNat_eq ?_)
  rw [BitVec.toNat_ofInt, BitVec.toNat_ofInt, h]

end

/-! ## Signed runs -/

section

variable {w n : Nat} {b : BitVec n}

/-- The number a run stands for. -/
def number (isSigned : Bool) (b : BitVec n) : Int := if isSigned then b.toInt else b.toNat

/-- Whether the sign bit of a masked run is set. -/
theorem top_eq_zero_iff (hn : 0 < n) (hw : n < w) :
    b.setWidth w &&& 1#w <<< (n - 1) = 0#w ↔ b.msb = false := by
  rw [BitVec.msb_eq_getLsbD_last]
  constructor
  · intro h
    have hbit := congrArg (fun x : BitVec w => x.getLsbD (n - 1)) h
    simpa [show n - 1 < w by omega] using hbit
  · intro h
    refine BitVec.eq_of_getLsbD_eq fun i hi => ?_
    by_cases hi' : i = n - 1
    · subst hi'
      simp [h]
    · have : (1#w <<< (n - 1)).getLsbD i = false := by
        simp only [BitVec.getLsbD_shiftLeft, BitVec.getLsbD_one]
        simp
        omega
      simp [this]

theorem toNat_setWidth_of_lt (hw : n < w) : (b.setWidth w).toNat = b.toNat := by
  rw [BitVec.toNat_setWidth, Nat.mod_eq_of_lt]
  exact Nat.lt_of_lt_of_le b.isLt (Nat.pow_le_pow_right (by omega) (by omega))

/-- A masked run below the sign bit of its word is not negative. -/
theorem toInt_setWidth_of_lt (hw : n < w) : (b.setWidth w).toInt = b.toNat := by
  have hlt : b.toNat < 2 ^ (w - 1) :=
    Nat.lt_of_lt_of_le b.isLt (Nat.pow_le_pow_right (by omega) (by omega))
  have hpow : 2 ^ w = 2 * 2 ^ (w - 1) := by rw [← Nat.pow_succ', Nat.succ_eq_add_one, Nat.sub_add_cancel (by omega)]
  rw [BitVec.toInt_eq_toNat_of_lt, toNat_setWidth_of_lt hw]
  rw [toNat_setWidth_of_lt hw]
  omega

theorem toInt_sub_of_msb (hw : n < w) (h : b.msb = true) : (b.setWidth w - 1#w <<< n).toInt = b.toInt := by
  have hb := b.isLt
  have hlt : 2 ^ n < 2 ^ w := Nat.pow_lt_pow_right (by omega) hw
  have hhalf : 2 * 2 ^ n ≤ 2 ^ w := by
    rw [← Nat.pow_succ']
    exact Nat.pow_le_pow_right (by omega) hw
  have hone : 1 % 2 ^ w = 1 := Nat.mod_eq_of_lt (by have := Nat.pow_pos (n := n) (show 0 < 2 by omega); omega)
  have hshift : (1#w <<< n).toNat = 2 ^ n := by
    rw [BitVec.toNat_shiftLeft, BitVec.toNat_ofNat, hone, Nat.shiftLeft_eq, Nat.one_mul, Nat.mod_eq_of_lt hlt]
  have hsub : (b.setWidth w - 1#w <<< n).toNat = 2 ^ w - 2 ^ n + b.toNat := by
    rw [BitVec.toNat_sub, hshift, toNat_setWidth_of_lt hw, Nat.mod_eq_of_lt (by omega)]
  rw [BitVec.toInt_eq_toNat_cond, hsub, if_neg (by omega), BitVec.toInt_eq_msb_cond, if_pos h]
  rw [Int.natCast_add, Int.natCast_sub (by omega)]
  omega

/-- The sign extension of a masked run: `v - (1 << n)` where its top bit is set. -/
theorem extended_toInt (hn : 0 < n) (hw : n < w) {isSigned : Bool} {v r : BitVec w} (hv : v = b.setWidth w)
    (hset : isSigned = true → v &&& 1#w <<< (n - 1) ≠ 0#w → r = v - 1#w <<< n)
    (hclear : (isSigned = true → v &&& 1#w <<< (n - 1) = 0#w) → r = v) : r.toInt = number isSigned b := by
  subst hv
  have htop := top_eq_zero_iff (b := b) hn hw
  have hmsb := BitVec.toInt_eq_msb_cond b
  by_cases hs : isSigned = true
  · by_cases h : b.msb = true
    · rw [hset hs fun h0 => by simp [htop.1 h0] at h, number, if_pos hs, toInt_sub_of_msb hw h]
    · rw [hclear fun _ => htop.2 (by simpa using h), number, if_pos hs, toInt_setWidth_of_lt hw, hmsb, if_neg h]
  · rw [hclear fun h => absurd h hs, number, if_neg hs, toInt_setWidth_of_lt hw]

end

end Bbq.Lib.BitRun
