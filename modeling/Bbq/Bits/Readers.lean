import Bbq.Bits.Document
import Mathlib.Tactic.Ring
import Mathlib.Tactic.Linarith

/-!
# A bit field in the generated readers

`collapse_bitfield` (`backends/render/bbq_codegen.h:247-289`), which turns the konts of a run into one record, and what
the three reader templates make of it: the C++ and the C view readers (`reader_view_cpp.inja:69-90`,
`reader_view_c.inja:75-94`) and the owning C reader (`reader_c_stencil.inja:215-234`).

The record's shifts follow the default byte order, the bytes the live one.
-/

namespace Bbq.Bits

open Cek (PrimitiveInfo Machine Program Kont Rho)
open Lib.BitRun Zcow

/-! ## The record of a run -/

/-- An entry of the record. -/
structure Member where
  target : String
  shift : Nat
  mask : Int64
  start : Nat
  stop : Nat
  isSigned : Bool

/-- `BitfieldInfo`; of `prim`, the container and `be`. -/
structure BitfieldInfo where
  members : List Member
  container : PrimitiveInfo
  be : Bool
  next : Kont
  msbFirst : Bool

/-- Whether a `where` that fails ends the rule or the alternative. -/
def isHard : Kont → Bool
  | .abortRule | .onFail .. => true
  | _ => false

/-- The record of one entry. -/
def member (container : PrimitiveInfo) (be : Bool) (width offsetBefore : Nat) (isSigned : Bool) (name : Option String) :
    Except Fault Member := do
  let shift := if be then container.byteCount * 8 - offsetBefore - width else offsetBefore
  let mask := (← shl 1 width) - 1
  return { target := name.getD "", shift, mask := mask.toInt64, start := shift, stop := shift + width, isSigned }

/-- The walk of `collapse_bitfield`: the members, and where it stops. -/
def walk (container : PrimitiveInfo) (be : Bool) : Kont → Except Fault (List Member × Kont)
  | .extractBits _ width offsetBefore isSigned (.capture name (.storeEnv _ after)) => do
    let m ← member container be width offsetBefore isSigned name
    let (ms, k) ←
      match after with
      | .evalConstraint e onFalse next =>
        if isHard onFalse then walk container be next else .ok ([], .evalConstraint e onFalse next)
      | after => walk container be after
    return (m :: ms, k)
  | .extractBits _ width offsetBefore isSigned (.storeEnv name after) => do
    let m ← member container be width offsetBefore isSigned name
    let (ms, k) ←
      match after with
      | .evalConstraint e onFalse next =>
        if isHard onFalse then walk container be next else .ok ([], .evalConstraint e onFalse next)
      | after => walk container be after
    return (m :: ms, k)
  | k => .ok ([], k)

/-- What goes on after a walk: past the run's `AdvancePos`, if it ended there. -/
def afterRun : Kont → Kont
  | .advancePos _ next => next
  | m => m

/-- `collapse_bitfield` of a run in `container`. -/
def collapseBitfield (defaultLe : Bool) (container : PrimitiveInfo) (first : Kont) : Except Fault BitfieldInfo := do
  let be := container.endian == .big || container.endian == .default && !defaultLe
  let (members, m) ← walk container be first
  return { members, container, be, next := afterRun m, msbFirst := be }

/-! ## The readers -/

/-- A generated reader. -/
inductive Reader
  | viewCpp | viewC | owningC

/-- `read_at`, of either view. -/
def readAt (data : List UInt8) (offset width : Nat) (be native littleEndian : Bool) : UInt64 :=
  let b := if native then !littleEndian else be
  (List.range width).foldl
    (fun v i =>
      let byte := (data.getD (offset + i) 0).toUInt64
      if b then v <<< 8 ||| byte else v ||| byte <<< UInt64.ofNat (8 * i))
    0

/-- `v`, sign-extended from the entry's own width when it is declared signed. -/
def Member.extend (m : Member) (v : Int64) : Int64 :=
  if m.isSigned ∧ m.stop - m.start < 64 ∧ v &&& 1 <<< Int64.ofNat (m.stop - m.start - 1) ≠ 0
  then v - 1 <<< Int64.ofNat (m.stop - m.start) else v

/-- The bytes of `bitfield_entry_type`. -/
def fieldBytes (width : Nat) : Nat := if width ≤ 8 then 1 else if width ≤ 16 then 2 else if width ≤ 32 then 4 else 8

/-- What a field of that type keeps of `v`. -/
def stored (isSigned : Bool) (width : Nat) (v : Int64) : Int64 :=
  wordToInt64 isSigned (fieldBytes width) (v.toUInt64.toNat % 2 ^ (8 * fieldBytes width))

/-- The value a reader gives an entry, with the container at `pos`. -/
def Reader.value (info : BitfieldInfo) (data : List UInt8) (pos : Nat) (littleEndian : Bool) (m : Member) :
    Reader → Int64
  | .viewCpp | .viewC =>
    let native := info.container.endian == .default
    let bf := readAt data pos info.container.byteCount info.be native littleEndian
    m.extend ((bf >>> UInt64.ofNat m.shift) &&& m.mask.toUInt64).toInt64
  | .owningC =>
    let n := info.container.byteCount
    let little := if info.container.endian == .default then littleEndian else !info.be
    let w := wordOf little (bytesAt data pos n)
    -- the shift is arithmetic where the container's C type is signed
    let v := match info.container.sign with
      | .signed => wordToInt64 true n w >>> Int64.ofNat m.shift &&& m.mask
      | .unsigned => (UInt64.ofNat w >>> UInt64.ofNat m.shift &&& m.mask.toUInt64).toInt64
    stored m.isSigned (m.stop - m.start) (m.extend v)

/-- The entries of a run and their values, as a reader has them. -/
def Reader.extract (r : Reader) (info : BitfieldInfo) (data : List UInt8) (pos : Nat) (littleEndian : Bool) :
    List (String × Int64) :=
  info.members.map fun m => (m.target, r.value info data pos littleEndian m)

/-! ## What they read -/

section

variable {data : List UInt8} {pos n : Nat}

theorem bytesAt_succ (h : pos + n < data.length) : bytesAt data pos (n + 1) = bytesAt data pos n ++ [data.getD (pos + n) 0] := by
  have hlt : n < (data.drop pos).length := by rw [List.length_drop]; omega
  rw [bytesAt, bytesAt, List.take_succ_eq_append_getElem hlt, List.getElem_drop, List.getD_eq_getElem?_getD,
    List.getElem?_eq_getElem h, Option.getD_some]

/-- Reading on, in either order. -/
theorem toNat_readAt {be native littleEndian : Bool} (h : pos + n ≤ data.length) (hn : n ≤ 8) :
    (readAt data pos n be native littleEndian).toNat =
      wordOf (!(if native then !littleEndian else be)) (bytesAt data pos n) := by
  unfold readAt
  generalize (if native = true then !littleEndian else be) = b
  cases b with
  | true =>
    have hfold : ∀ k ≤ n, (List.range k).foldl (fun (v : UInt64) i => v <<< 8 ||| (data.getD (pos + i) 0).toUInt64) 0 =
        foldWord (bytesAt data pos k) := by
      intro k hk
      induction k with
      | zero => rfl
      | succ k ih =>
        rw [List.range_succ, List.foldl_append, ih (by omega), bytesAt_succ (by omega), foldWord_concat]
        rfl
    simp only [if_true]
    rw [hfold n (Nat.le_refl n), toNat_foldWord (by rw [length_bytesAt h]; exact hn)]
    rfl
  | false =>
    have hfold : ∀ k ≤ n,
        ((List.range k).foldl
          (fun v i => v ||| (data.getD (pos + i) 0).toUInt64 <<< UInt64.ofNat (8 * i)) 0).toNat =
        leNat (bytesAt data pos k) := by
      intro k hk
      induction k with
      | zero => rfl
      | succ k ih =>
        have hlt := leNat_lt (bytesAt data pos k)
        rw [length_bytesAt (by omega)] at hlt
        have hbyte := (data.getD (pos + k) 0).toNat_lt
        have hpow : (256 : Nat) ^ k = 2 ^ (8 * k) := by rw [show 256 = 2 ^ 8 from rfl, ← Nat.pow_mul]
        have hmod : (UInt64.ofNat (8 * k)).toNat % 64 = 8 * k := by
          rw [UInt64.toNat_ofNat']
          omega
        have hfit : (data.getD (pos + k) 0).toNat * 2 ^ (8 * k) < 2 ^ 64 := by
          have hle : 2 ^ (8 * k) ≤ 2 ^ 56 := Nat.pow_le_pow_right (by omega) (by omega)
          nlinarith
        rw [List.range_succ, List.foldl_append, List.foldl_cons, List.foldl_nil, UInt64.toNat_or, ih (by omega),
          UInt64.toNat_shiftLeft, hmod, UInt8.toNat_toUInt64, Nat.shiftLeft_eq, Nat.mod_eq_of_lt hfit,
          bytesAt_succ (by omega), leNat_concat, length_bytesAt (by omega), hpow, Nat.or_comm, Nat.mul_comm _ (2 ^ _),
          ← Nat.two_pow_add_eq_or_of_lt (by rw [← hpow]; exact hlt), Nat.add_comm]
    simp only [Bool.false_eq_true, if_false]
    exact hfold n (Nat.le_refl n)

end

section

variable {n s : Nat} {isSigned : Bool} {v : Int64} {b : BitVec n}

theorem number_bounds (b : BitVec n) : -2 ^ (n - 1) ≤ number true b ∧ number true b < 2 ^ (n - 1) ∧
    0 ≤ number false b ∧ number false b < 2 ^ n := by
  refine ⟨?_, ?_, Int.natCast_nonneg _, ?_⟩
  · exact BitVec.le_toInt b
  · exact BitVec.toInt_lt
  · have h := b.isLt
    show (b.toNat : Int) < 2 ^ n
    exact_mod_cast h

theorem fieldBytes_le (hn : n ≤ 64) : n ≤ 8 * fieldBytes n ∧ fieldBytes n ≤ 8 := by
  unfold fieldBytes
  split
  · omega
  · split
    · omega
    · split <;> omega

theorem toInt_ofInt_of_bounds {x : Int} (hlo : -2 ^ 63 ≤ x) (hhi : x < 2 ^ 63) : (Int64.ofInt x).toInt = x := by
  rw [Int64.toInt_ofInt, show Int64.size = 2 ^ 64 from rfl, Int.bmod_def]
  omega

/-- A field keeps an entry's value. -/
theorem stored_toInt (hn : 0 < n) (hlt : n < 64) (hv : v.toInt = number isSigned b) :
    (stored isSigned n v).toInt = number isSigned b := by
  obtain ⟨hlo, hhi, hpos, hmax⟩ := number_bounds b
  obtain ⟨hle, h8⟩ := fieldBytes_le (n := n) (by omega)
  have h63 : (2 : Int) ^ n ≤ 2 ^ 63 := pow_le_pow_right₀ (by decide) (by omega)
  have h62 : (2 : Int) ^ (n - 1) ≤ 2 ^ 63 := pow_le_pow_right₀ (by decide) (by omega)
  have hdvd : ((2 ^ (8 * fieldBytes n) : Nat) : Int) ∣ ((2 ^ 64 : Nat) : Int) :=
    Int.natCast_dvd_natCast.2 (Nat.pow_dvd_pow 2 (by omega))
  have hword : ((v.toUInt64.toNat % 2 ^ (8 * fieldBytes n) : Nat) : Int) =
      number isSigned b % (2 ^ (8 * fieldBytes n) : Nat) := by
    have hv64 : (v.toUInt64.toNat : Int) % (2 ^ 64 : Nat) = v.toInt % (2 ^ 64 : Nat) := by
      have hbmod : v.toInt = (v.toUInt64.toNat : Int).bmod (2 ^ 64) := BitVec.toInt_eq_toNat_bmod v.toBitVec
      rw [hbmod, Int.bmod_emod]
    have := congrArg (· % ((2 ^ (8 * fieldBytes n) : Nat) : Int)) hv64
    rw [Int.emod_emod_of_dvd _ hdvd, Int.emod_emod_of_dvd _ hdvd] at this
    rw [Int.natCast_emod, this, hv]
  have hpow : 2 ^ n ≤ 2 ^ (8 * fieldBytes n) := Nat.pow_le_pow_right (by omega) hle
  rw [stored, wordToInt64]
  cases isSigned with
  | false =>
    rw [if_neg Bool.false_ne_true, hword, Int.emod_eq_of_lt hpos]
    · exact toInt_ofInt_of_bounds (by linarith) (by linarith)
    · refine Int.lt_of_lt_of_le hmax ?_
      exact_mod_cast hpow
  | true =>
    have hhalf : 2 * 2 ^ (n - 1) = 2 ^ n := by rw [← Nat.pow_succ', Nat.succ_eq_add_one, Nat.sub_add_cancel hn]
    have hself : (number true b).bmod (2 ^ (8 * fieldBytes n)) = number true b := by
      rw [show (2 : Int) ^ (n - 1) = ((2 ^ (n - 1) : Nat) : Int) by push_cast; rfl] at hlo hhi
      exact Int.bmod_eq_of_le (by omega) (by omega)
    rw [if_pos rfl, signExtend, hword, Int.emod_bmod, hself]
    exact toInt_ofInt_of_bounds (by linarith) (by linarith)

end

section

variable {run : Run} {info : BitfieldInfo} {mem : Member} {s n : Nat} {isSigned : Bool} {live : Bool}
  {data : List UInt8} {pos : Nat}

/-- What the record says of `n` bits from bit `s` on. -/
structure Member.Reads (mem : Member) (s n : Nat) (isSigned : Bool) : Prop where
  shift : mem.shift = s
  mask : mem.mask.toBitVec = Lib.BitRun.mask 64 n
  start : mem.start = s
  stop : mem.stop = s + n
  isSigned : mem.isSigned = isSigned

theorem Member.extend_toInt {v : Int64} {b : BitVec n} (h : mem.Reads s n isSigned) (hn : 0 < n) (hlt : n < 64)
    (hv : v.toBitVec = b.setWidth 64) : (mem.extend v).toInt = number isSigned b := by
  have hwidth : mem.stop - mem.start = n := by
    rw [h.stop, h.start]
    omega
  have hbit : v &&& 1 <<< Int64.ofNat (n - 1) = 0 ↔ v.toBitVec &&& 1#64 <<< (n - 1) = 0#64 := by
    rw [← Int64.toBitVec_inj, Int64.toBitVec_and, toBitVec_sshl (by omega)]
    rfl
  rw [Member.extend, hwidth, h.isSigned]
  refine extended_toInt hn hlt hv (fun hsigned hset => ?_) fun hclear => ?_
  · rw [if_pos ⟨hsigned, hlt, fun h0 => hset (hbit.1 h0)⟩, Int64.toBitVec_sub, toBitVec_sshl hlt]
    rfl
  · rw [if_neg fun h0 => h0.2.2 (hbit.2 (hclear h0.1))]

/-- Both views and the owning reader read the bytes in the live order. -/
theorem live_order (hc : info.container = run.container) {dflt : Bool} (hbe : info.be = run.msbFirst dflt) :
    (if info.container.endian == .default then !live else info.be) = run.msbFirst live ∧
      (if info.container.endian == .default then live else !info.be) = !run.msbFirst live := by
  rw [hc, hbe, Run.msbFirst, Run.msbFirst]
  cases run.container.endian <;> cases live <;> cases dflt <;> exact ⟨rfl, rfl⟩

/-- **A reader's value** of an entry is what its bits say in the live order, at the shift the record has. -/
theorem Reader.value_toInt (r : Reader) (hc : info.container = run.container) {dflt : Bool}
    (hbe : info.be = run.msbFirst dflt) (h : mem.Reads s n isSigned) (hn : 0 < n) (hlt : n < 64)
    (hs : s + n ≤ 8 * run.container.byteCount) (hfit : pos + run.container.byteCount ≤ data.length) :
    (r.value info data pos live mem).toInt =
      number isSigned ((Run.word (run.msbFirst live) (bytesAt data pos run.container.byteCount)).extractLsb' s n) := by
  obtain ⟨hview, hown⟩ := @live_order run info live hc dflt hbe
  have h8 := (byteCount_pos run).2
  have hwidth : mem.stop - mem.start = n := by
    rw [h.stop, h.start]
    omega
  have hlogical : ∀ w : UInt64, (w >>> UInt64.ofNat mem.shift &&& mem.mask.toUInt64).toInt64.toBitVec =
      (w.toBitVec.extractLsb' s n).setWidth 64 := by
    intro w
    show (w >>> UInt64.ofNat mem.shift).toBitVec &&& mem.mask.toBitVec = _
    rw [h.shift, toBitVec_shr (by omega), h.mask, ← field_eq hlt]
    rfl
  have hword : ∀ w : UInt64, w.toNat = wordOf (!run.msbFirst live) (bytesAt data pos run.container.byteCount) →
      w.toBitVec = Run.word (run.msbFirst live) (bytesAt data pos run.container.byteCount) := by
    intro w hw
    rw [Run.word, ← hw]
    exact BitVec.eq_of_toNat_eq (by simp)
  cases r with
  | owningC =>
    rw [hc] at hown
    simp only [Reader.value, hc, hown, hwidth, h.isSigned]
    refine stored_toInt hn hlt (Member.extend_toInt h hn hlt ?_)
    split
    · rw [Int64.toBitVec_and, h.shift, toBitVec_sshr (by omega), h.mask, and_sshiftRight_eq hlt (by omega),
        extract_wordToInt64 h8 hs]
      rfl
    · rw [hlogical, ← hword]
      have hbytes := length_bytesAt hfit
      have hsmall := wordOf_lt (!run.msbFirst live) (bytesAt data pos run.container.byteCount)
      have hpow : 256 ^ (bytesAt data pos run.container.byteCount).length ≤ 256 ^ 8 :=
        Nat.pow_le_pow_right (by omega) (by omega)
      rw [UInt64.toNat_ofNat', Nat.mod_eq_of_lt (by omega)]
  | _ =>
    have hread : ((readAt data pos run.container.byteCount info.be (info.container.endian == .default) live).toNat =
        wordOf (!(if info.container.endian == .default then !live else info.be)) _) := toNat_readAt hfit h8
    rw [hview] at hread
    rw [← hword _ hread, ← hc]
    exact Member.extend_toInt h hn hlt (hlogical _)

end

end Bbq.Bits
