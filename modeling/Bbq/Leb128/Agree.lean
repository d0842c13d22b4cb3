import Bbq.Leb128.Meaning
import Bbq.Leb128.Write

/-!
# Do the varint codecs agree?

Every decoder and encoder of `Read.lean` and `Write.lean` under one roof, at the widths a grammar can ask
for.

The unsigned decoders read `decoded`, and the CEK machine's and the C reader's signed ones
`decodedSigned`. The C++ reader's `sleb_capture` accepts any last byte, and of a 32-bit encoding that takes all
five bytes it does not extend the sign. So it agrees exactly where the last permitted byte is `Plain`, and a
negative number below -2 ^ 27 is not read back at 32 bits.
-/

namespace Bbq.Leb128

open Lib.Leb128

/-! ## Decoders and encoders -/

/-- The width of a varint. -/
inductive LebWidth
  | w32 | w64
  deriving DecidableEq, Repr

def LebWidth.bits : LebWidth → Nat
  | .w32 => 32
  | .w64 => 64

inductive Decoder
  | cek | cpp | c
  deriving DecidableEq, Repr

namespace Decoder

/-- The value of an unsigned varint and the bytes it takes. -/
def unsigned (w : LebWidth) (c : Cursor) : Decoder → Option (Int × Nat)
  | .cek => (decodeUleb128 w.bits c.rest).map fun (v, n) => ((v : Int), n)
  | .cpp => (Cpp.ulebCapture c w.bits).map fun (v, stop) => ((v.toNat : Int), stop - c.pos)
  | .c => (C.readUleb128 c w.bits).map fun (v, c') => ((v.toNat : Int), c'.pos - c.pos)

def signed (w : LebWidth) (c : Cursor) : Decoder → Option (Int × Nat)
  | .cek => (decodeSleb128 w.bits c.rest).map fun (v, n) => (v.toInt, n)
  | .cpp => (Cpp.slebCapture c w.bits).map fun (v, stop) => (v.toInt, stop - c.pos)
  | .c => (C.readSleb128 c w.bits).map fun (v, c') => (v.toInt, c'.pos - c.pos)

end Decoder

inductive Encoder
  | cpp | c
  deriving DecidableEq, Repr

namespace Encoder

/-- The encoding of a number of the width, carried in 64 bits. -/
def unsigned {w : LebWidth} (v : BitVec w.bits) : Encoder → List UInt8
  | .cpp => Cpp.encodeUleb128 (.ofNat v.toNat)
  | .c => C.writeUleb128 (.ofNat v.toNat)

def signed {w : LebWidth} (v : BitVec w.bits) : Encoder → List UInt8
  | .cpp => Cpp.encodeSleb128 (.ofInt v.toInt)
  | .c => C.writeSleb128 (.ofInt v.toInt)

end Encoder

/-! ## Agreement -/

/-- All decoders read what they should. -/
def Agree (w : LebWidth) (c : Cursor) : Prop :=
  ∀ d : Decoder, d.unsigned w c = decoded w.bits c.rest ∧ d.signed w c = decodedSigned w.bits c.rest

/-- A reader at an encoding somewhere in its input. -/
def at_ (before g after : List UInt8) : Cursor where
  data := before ++ g ++ after
  pos := before.length
  stop := (before ++ g ++ after).length
  stop_le := Nat.le_refl _

/-- What an encoder writes, all decoders read back. -/
def ReadBack {w : LebWidth} (v : BitVec w.bits) : Prop :=
  ∀ (e : Encoder) (d : Decoder) (before after : List UInt8),
    d.unsigned w (at_ before (e.unsigned v) after) = some ((v.toNat : Int), (e.unsigned v).length) ∧
    d.signed w (at_ before (e.signed v) after) = some (v.toInt, (e.signed v).length)

/-- The last permitted byte of a signed encoding, when it repeats the sign and `sleb_capture` need not. -/
def LebWidth.plain : LebWidth → UInt8 → Prop
  | .w32, b => b < 8
  | .w64, b => b = 0 ∨ b = 0x7f

/-- The input does not start with an encoding of all the bytes permitted whose last is not plain. -/
def Plain (w : LebWidth) (bs : List UInt8) : Prop :=
  ∀ g b, first bs = some (g ++ [b]) → g.length + 1 = lebMaxBytes w.bits → w.plain b

section

variable {w : LebWidth} {c : Cursor} {bs g : List UInt8}

theorem LebWidth.bits_le (w : LebWidth) : w.bits ≤ 64 := by cases w <;> decide

theorem LebWidth.maxBytes_le (w : LebWidth) : 7 * lebMaxBytes w.bits ≤ 70 := by cases w <;> decide

/-- A number in the range of its width is the one its 64 bits hold. -/
theorem ofInt_inRange {v : Int} (h : InRange w.bits v) : (Int64.ofInt v).toInt = v := by
  have hsize : Int64.size = 2 ^ 64 := rfl
  rw [Int64.toInt_ofInt, hsize, Int.bmod_def]
  cases w <;> simp only [InRange, LebWidth.bits] at h <;> omega

/-! ### The decoders that agree everywhere -/

theorem Decoder.unsigned_cek : Decoder.cek.unsigned w c = decoded w.bits c.rest := by
  rw [Decoder.unsigned, decodeUleb128_eq w.bits_le, decoded]
  rcases first c.rest with _ | g
  · rfl
  · rw [Option.bind_some, Option.bind_some]
    split <;> rfl

theorem Decoder.signed_cek : Decoder.cek.signed w c = decodedSigned w.bits c.rest := by
  rw [Decoder.signed, decodeSleb128_eq, decodedSigned]
  rcases first c.rest with _ | g
  · rfl
  · rw [Option.bind_some, Option.bind_some]
    by_cases h : g.length ≤ lebMaxBytes w.bits ∧ InRange w.bits (Lib.Leb128.signed g)
    · rw [if_pos h, if_pos ⟨h.1, h.2.1, h.2.2⟩, Option.map_some]
      simp only [ofInt_inRange h.2]
    · rw [if_neg h, if_neg fun h0 => h ⟨h0.1, h0.2.1, h0.2.2⟩]
      rfl

/-- From where a reader ends to how many bytes it took. -/
theorem map_taken {α β : Type} {x : Option α} {y : Option (β × Nat)} {f : α → β × Nat} {p : Nat} (g : β → Int)
    (h : x.map f = y.map fun v => (v.1, p + v.2)) :
    x.map (fun a => (g (f a).1, (f a).2 - p)) = y.map fun v => (g v.1, v.2) := by
  have := congrArg (Option.map fun v : β × Nat => (g v.1, v.2 - p)) h
  rw [Option.map_map, Option.map_map] at this
  refine this.trans (congrArg (fun g => Option.map g y) (funext fun v => ?_))
  simp

theorem Decoder.unsigned_eq (d : Decoder) : d.unsigned w c = decoded w.bits c.rest := by
  rw [← Decoder.unsigned_cek]
  cases d with
  | cek => rfl
  | cpp => exact map_taken (fun n : Nat => (n : Int)) (Cpp.ulebCapture_eq w.maxBytes_le)
  | c => exact map_taken (fun n : Nat => (n : Int)) (C.readUleb128_eq w.maxBytes_le)

theorem Decoder.signed_c : Decoder.c.signed w c = decodedSigned w.bits c.rest := by
  rw [← Decoder.signed_cek]
  exact map_taken Int64.toInt (C.readSleb128_eq w.bits_le)

/-! ### `sleb_capture` -/

/-- Below the permitted length every number is in range. -/
theorem inRange_short (hlen : g.length < lebMaxBytes w.bits) : InRange w.bits (Lib.Leb128.signed g) := by
  obtain ⟨hlo, hhi⟩ := signed_bounds g
  have hle : (128 : Int) ^ g.length ≤ 128 ^ (lebMaxBytes w.bits - 1) :=
    pow_le_pow_right₀ (by decide) (by omega)
  have hw : (128 : Int) ^ (lebMaxBytes w.bits - 1) ≤ 2 * 2 ^ (w.bits - 1) := by cases w <;> decide
  exact ⟨by linarith, by linarith⟩

/-- A signed encoding as its last group after the others. -/
theorem signed_concat (g : List UInt8) (b : UInt8) :
    Lib.Leb128.signed (g ++ [b]) = signedFrom (value g) (7 * g.length) [b] := by
  rw [Lib.Leb128.signed, signedFrom, value_concat, value_cons, value_nil, Nat.mul_zero, Nat.add_zero,
    List.length_append, List.length_singleton, ← Nat.mul_add, Nat.pow_mul, Nat.pow_mul]

theorem value_w32 {b : UInt8} (hb : b.toNat < 128) (hlen : g.length = 4) :
    value (g ++ [b]) = value g + 2 ^ 28 * b.toNat ∧ value g < 2 ^ 28 := by
  have hr := value_lt g
  rw [hlen] at hr
  rw [value_concat, hlen, Nat.mod_eq_of_lt hb]
  exact ⟨rfl, hr⟩

theorem carried_w32 {b : UInt8} (hb : b.toNat < 128) (hlen : g.length = 4) :
    (Int64.ofInt (value (g ++ [b]))).toInt = value (g ++ [b]) := by
  obtain ⟨hvalue, hr⟩ := value_w32 hb hlen
  rw [Int64.toInt_ofInt, show Int64.size = 2 ^ 64 from rfl, hvalue, Int.bmod_def]
  omega

/-- Of five bytes `sleb_capture` records the number without its sign. -/
theorem captured_w32 {b : UInt8} (hb : b.toNat < 128) (hlen : g.length = 4) :
    InRange 32 (Lib.Leb128.signed (g ++ [b])) ∧
        (Int64.ofInt (value (g ++ [b]))).toInt = Lib.Leb128.signed (g ++ [b]) ↔ b < 8 := by
  obtain ⟨hvalue, hr⟩ := value_w32 hb hlen
  have hsingle := signedFrom_single hr hb
  have hrange := inRange_single 3 hr hb
  have hlt : b < 8 ↔ b.toNat < 8 := UInt8.lt_iff_toNat_lt
  rw [carried_w32 hb hlen, signed_concat, hlen, hlt, hrange, hsingle, hvalue]
  split <;> omega

/-- Of ten bytes the last one is all sign. -/
theorem inRange_w64 {b : UInt8} (hb : b.toNat < 128) (hlen : g.length = 9) :
    InRange 64 (Lib.Leb128.signed (g ++ [b])) ↔ b = 0 ∨ b = 0x7f := by
  have hr : value g < 2 ^ 63 := by
    have := value_lt g
    rw [hlen] at this
    omega
  have hrange := inRange_single 0 hr hb
  have hends : (b = 0 ∨ b = 0x7f) ↔ b.toNat = 0 ∨ b.toNat = 127 := by
    rw [← UInt8.toNat_inj, ← UInt8.toNat_inj]
    rfl
  rw [hends, signed_concat, hlen]
  refine hrange.trans ?_
  omega

/-- So the accumulator keeps the right 64 bits of a number in range. -/
theorem captured_w64 {b : UInt8} (hb : b.toNat < 128) (hlen : g.length = 9) :
    InRange 64 (Lib.Leb128.signed (g ++ [b])) ∧
        (Int64.ofInt (value (g ++ [b]))).toInt = Lib.Leb128.signed (g ++ [b]) ↔ b = 0 ∨ b = 0x7f := by
  have hr : value g < 2 ^ 63 := by
    have := value_lt g
    rw [hlen] at this
    omega
  have hextend := ofInt_signedFrom hr hb
  have hvalue : value (g ++ [b]) = value g + 2 ^ 63 * b.toNat := by
    rw [value_concat, hlen, Nat.mod_eq_of_lt hb, show 128 ^ 9 = 2 ^ 63 from rfl]
  rw [if_neg fun h => absurd h.1 (by decide), ← hvalue] at hextend
  rw [← inRange_w64 hb hlen]
  refine and_iff_left_of_imp fun h => ?_
  rw [signed_concat, hlen] at h ⊢
  rw [hextend]
  exact ofInt_inRange (w := .w64) h

theorem captured_full_iff {b : UInt8} (hb : b.toNat < 128) (hlen : g.length + 1 = lebMaxBytes w.bits) :
    InRange w.bits (Lib.Leb128.signed (g ++ [b])) ∧
        (Int64.ofInt (value (g ++ [b]))).toInt = Lib.Leb128.signed (g ++ [b]) ↔ w.plain b := by
  cases w with
  | w32 => exact captured_w32 hb (Nat.succ.inj hlen)
  | w64 => exact captured_w64 hb (Nat.succ.inj hlen)

theorem Decoder.signed_cpp_iff : Decoder.cpp.signed w c = decodedSigned w.bits c.rest ↔ Plain w c.rest := by
  rw [Decoder.signed, Cpp.slebCapture_eq w.bits_le, decodedSigned]
  rcases hf : first c.rest with _ | g
  · refine iff_of_true rfl fun g b h => ?_
    rw [hf] at h
    cases h
  obtain ⟨g, b, rfl⟩ : ∃ g' b, g = g' ++ [b] :=
    ⟨_, _, (List.dropLast_concat_getLast (first_ne_nil hf)).symm⟩
  have hplain : Plain w c.rest ↔ (g.length + 1 = lebMaxBytes w.bits → w.plain b) := by
    constructor
    · intro h hlen
      exact h g b hf hlen
    · intro h g' b' hg' hlen
      rw [hf, Option.some.injEq] at hg'
      obtain ⟨rfl, hb⟩ := List.append_inj' hg' rfl
      cases hb
      exact h hlen
  have hlength : (g ++ [b]).length = g.length + 1 := List.length_append
  rw [hplain, Option.bind_some, Option.bind_some, hlength]
  rcases Nat.lt_trichotomy (g.length + 1) (lebMaxBytes w.bits) with hlt | heq | hgt
  · have hrange : InRange w.bits (Lib.Leb128.signed (g ++ [b])) := inRange_short (by rw [hlength]; exact hlt)
    have hwidth : 7 * (g.length + 1) < w.bits := by
      have : 7 * (lebMaxBytes w.bits - 1) < w.bits := by cases w <;> decide
      omega
    rw [if_pos hlt.le, if_pos hwidth, if_pos ⟨hlt.le, hrange.1, hrange.2⟩]
    refine iff_of_true ?_ fun h => absurd h hlt.ne
    simp [ofInt_inRange hrange]
  · have hfull := captured_full_iff (last_lt hf) heq
    have hwidth : ¬ 7 * (g.length + 1) < w.bits := by
      rw [heq]
      cases w <;> decide
    rw [if_pos heq.le, if_neg hwidth, imp_iff_right heq, ← hfull]
    by_cases hrange : InRange w.bits (Lib.Leb128.signed (g ++ [b]))
    · rw [if_pos ⟨heq.le, hrange.1, hrange.2⟩]
      simp [hrange]
    · rw [if_neg fun h => hrange ⟨h.2.1, h.2.2⟩]
      simp [hrange]
  · rw [if_neg (by omega), if_neg fun h => absurd h.1 (by omega)]
    exact iff_of_true rfl fun h => absurd h hgt.ne'

/-- **The decoders agree** exactly on what `sleb_capture` reads right. -/
theorem agree_iff : Agree w c ↔ Plain w c.rest := by
  constructor
  · intro h
    exact Decoder.signed_cpp_iff.1 (h .cpp).2
  · intro h d
    refine ⟨d.unsigned_eq, ?_⟩
    cases d with
    | cek => exact Decoder.signed_cek
    | cpp => exact Decoder.signed_cpp_iff.2 h
    | c => exact Decoder.signed_c

/-! ## Reading back -/

theorem at_rest (before g after : List UInt8) : (at_ before g after).rest = g ++ after := by
  change ((before ++ g ++ after).drop before.length).take ((before ++ g ++ after).length - before.length) = g ++ after
  rw [List.append_assoc, List.drop_left, List.length_append, Nat.add_sub_cancel_left, List.take_length]

variable {v : BitVec w.bits}

theorem Encoder.unsigned_eq (e : Encoder) : e.unsigned v = encode v.toNat := by
  have hv : (UInt64.ofNat v.toNat).toNat = v.toNat := by
    rw [UInt64.toNat_ofNat', Nat.mod_eq_of_lt]
    exact Nat.lt_of_lt_of_le v.isLt (Nat.pow_le_pow_right (by omega) w.bits_le)
  cases e with
  | cpp => rw [Encoder.unsigned, Cpp.encodeUleb128_eq, hv]
  | c => rw [Encoder.unsigned, C.writeUleb128_eq, Cpp.encodeUleb128_eq, hv]

theorem inRange_toInt (v : BitVec w.bits) : InRange w.bits v.toInt := by
  have hpos : 0 < w.bits := by cases w <;> decide
  exact ⟨BitVec.le_toInt v, BitVec.toInt_lt⟩

theorem Encoder.signed_eq (e : Encoder) : e.signed v = encodeSigned v.toInt := by
  have hv := ofInt_inRange (inRange_toInt v)
  cases e with
  | cpp => rw [Encoder.signed, Cpp.encodeSleb128_eq, hv]
  | c => rw [Encoder.signed, C.writeSleb128_eq, Cpp.encodeSleb128_eq, hv]

theorem decoded_encode (after : List UInt8) :
    decoded w.bits (encode v.toNat ++ after) = some ((v.toNat : Int), (encode v.toNat).length) := by
  have hlen : (encode v.toNat).length ≤ lebMaxBytes w.bits := by
    refine encode_length (Nat.lt_of_lt_of_le v.isLt ?_) ?_ <;> cases w <;> decide
  rw [decoded, first_append (first_encode _), Option.bind_some, value_encode, if_pos ⟨hlen, v.isLt⟩]

theorem decodedSigned_encode (after : List UInt8) :
    decodedSigned w.bits (encodeSigned v.toInt ++ after) =
      some (v.toInt, (encodeSigned v.toInt).length) := by
  obtain ⟨hlo, hhi⟩ := inRange_toInt v
  have hle : (2 : Int) ^ (w.bits - 1) ≤ (64 * 128 ^ (lebMaxBytes w.bits - 1) : Nat) := by cases w <;> decide
  have hone : lebMaxBytes w.bits - 1 + 1 = lebMaxBytes w.bits := by cases w <;> decide
  have hlen : (encodeSigned v.toInt).length ≤ lebMaxBytes w.bits := by
    rw [← hone]
    exact encodeSigned_length (by linarith) (by linarith)
  rw [decodedSigned, first_append (first_encodeSigned _), Option.bind_some, signed_encodeSigned,
    if_pos ⟨hlen, hlo, hhi⟩]

theorem encoded_of_first {v : Int} {after : List UInt8} (h : first (encodeSigned v ++ after) = some g) :
    encodeSigned v = g := by
  rw [first_append (first_encodeSigned v), Option.some.injEq] at h
  exact h

/-- A number of 32 bits below -2 ^ 27 takes five bytes, the last of them not plain. -/
theorem not_plain_w32 {v : Int} (after : List UInt8) (hv : InRange 32 v) (hlow : v < -2 ^ 27) :
    ¬ Plain .w32 (encodeSigned v ++ after) := by
  intro hplain
  obtain ⟨hlo, hhi⟩ := hv
  have hle : (encodeSigned v).length ≤ 5 := encodeSigned_length (k := 4) (by omega) (by omega)
  have hge : 4 < (encodeSigned v).length := by
    by_contra hshort
    have hpow : (128 : Int) ^ (encodeSigned v).length ≤ 128 ^ 4 := pow_le_pow_right₀ (by decide) (by omega)
    have hbounds := (signed_bounds (encodeSigned v)).1
    rw [signed_encodeSigned] at hbounds
    linarith
  obtain ⟨g, b, hg⟩ : ∃ g b, encodeSigned v = g ++ [b] :=
    ⟨_, _, (List.dropLast_concat_getLast (encodeSigned_ne_nil v)).symm⟩
  have hfirst : first (g ++ [b]) = some (g ++ [b]) := hg ▸ first_encodeSigned v
  have hlen : g.length = 4 := by
    rw [hg, List.length_append, List.length_singleton] at hle hge
    omega
  have hb := last_lt hfirst
  have h8 : b < 8 := hplain g b (hg ▸ first_append (first_encodeSigned v) after) (by rw [hlen]; rfl)
  have hvalue := ((captured_w32 hb hlen).2 h8).2
  rw [carried_w32 hb hlen, ← hg, signed_encodeSigned] at hvalue
  omega

/-- The others that take five bytes are not negative. -/
theorem plain_w32 {v : Int} (after : List UInt8) (hv : InRange 32 v) (hlow : -2 ^ 27 ≤ v) :
    Plain .w32 (encodeSigned v ++ after) := by
  intro g b hf hfive
  have hlen : g.length = 4 := Nat.succ.inj hfive
  have hg := encoded_of_first hf
  have hb := last_lt (hg ▸ first_encodeSigned v)
  have hhigh : 2 ^ 27 ≤ v := by
    by_contra hsmall
    have hshort : (encodeSigned v).length ≤ 4 := encodeSigned_length (k := 3) (by omega) (by omega)
    rw [hg, List.length_append, List.length_singleton] at hshort
    omega
  have hsigned : Lib.Leb128.signed (g ++ [b]) = v := by rw [← hg, signed_encodeSigned]
  have hvalue : (value (g ++ [b]) : Int) = Lib.Leb128.signed (g ++ [b]) := by
    obtain ⟨hval, hr⟩ := value_w32 hb hlen
    have hsingle := signedFrom_single hr hb
    rw [signed_concat, hlen] at hsigned ⊢
    rw [show signedFrom (value g) (7 * 4) [b] = signedFrom (value g) 28 [b] from rfl] at hsigned ⊢
    rw [hsingle] at hsigned ⊢
    rw [hval]
    split at hsigned
    · omega
    · rename_i h64
      rw [if_neg h64]
  exact (captured_w32 hb hlen).1 ⟨hsigned ▸ hv, by rw [carried_w32 hb hlen, hvalue]⟩

/-- The encoding of a number is plain unless it is a low one of 32 bits. -/
theorem plain_encodeSigned_iff (after : List UInt8) :
    Plain w (encodeSigned v.toInt ++ after) ↔ (w = .w32 → -2 ^ 27 ≤ v.toInt) := by
  cases w with
  | w32 =>
    rw [imp_iff_right rfl]
    constructor
    · intro hplain
      by_contra hlow
      exact not_plain_w32 after (inRange_toInt v) (Int.not_le.1 hlow) hplain
    · intro hlow
      exact plain_w32 after (inRange_toInt v) hlow
  | w64 =>
    refine iff_of_true (fun g b hf hlen => ?_) fun h => absurd h (by decide)
    have hg := encoded_of_first hf
    have hrange := inRange_toInt v
    rw [← signed_encodeSigned v.toInt, hg] at hrange
    exact (inRange_w64 (last_lt (hg ▸ first_encodeSigned v.toInt)) (Nat.succ.inj hlen)).1 hrange

/-- **What is written is read back**, but for low numbers of 32 bits. -/
theorem readBack_iff : ReadBack v ↔ (w = .w32 → -2 ^ 27 ≤ v.toInt) := by
  constructor
  · intro h
    have h' := (h .cpp .cpp [] []).2
    rw [Encoder.signed_eq, ← decodedSigned_encode [], ← at_rest [], Decoder.signed_cpp_iff, at_rest] at h'
    exact (plain_encodeSigned_iff []).1 h'
  · intro h e d before after
    have hplain := (plain_encodeSigned_iff after).2 h
    rw [← at_rest before] at hplain
    have hagree := agree_iff.2 hplain d
    rw [Encoder.unsigned_eq, Encoder.signed_eq, ← decoded_encode after, ← decodedSigned_encode after]
    rw [at_rest] at hagree
    refine ⟨?_, hagree.2⟩
    rw [d.unsigned_eq, at_rest]

end

end Bbq.Leb128
