import Bbq.Bits.Readers
import Mathlib.Data.List.Forall2

/-!
# Do the bit fields agree?

The CEK machine, the document's accessors and the generated readers on one run (`Agrees`), and when they do
(`bitfields_agree_iff`).

Two things go wrong. A 64-bit entry is shifted for by 64, in `collapse_bitfield` and, where it is signed, in
`read_bits`. And the record of a run in the default byte order has its shifts from the grammar's default, while the
machine's, like the bytes, follow the live order. A third is not about values: `collapse_bitfield` stops at a `where`
that fails into a resync.
-/

namespace Bbq.Bits

open Cek (PrimitiveInfo Machine Program Kont Rho)
open Lib.BitRun Zcow

/-! ## Agreement -/

/-- What the machine left of a run, and what `read_bits` reads there. -/
structure Recorded (p : Program) (run : Run) (m : Machine) (c : Node) : Prop where
  kids : c.kids = run.placed.flatMap (entryKids p run m)
  reads : ∀ o e, (o, e) ∈ run.placed → e.name ≠ "_" → readBits c e.name p.bytes = .ok (extracted p run m o e)

/-- Writing an entry of a run: read back cut to its width, with the others as they were; and writing what is
there. -/
structure Rewrites (run : Run) (msb : Bool) (c : Node) (src : List UInt8) (e : BitfieldEntry) : Prop where
  cut : ∀ v, ∃ c' r, writeBits c e.name src v = .ok c' ∧ Holds run msb c' src ∧
    readBits c' e.name src = .ok r ∧ r.toInt = cut e v ∧
    ∀ o' e', (o', e') ∈ run.placed → e'.name ≠ "_" → e ≠ e' → readBits c' e'.name src = readBits c e'.name src
  back : ∃ r c', readBits c e.name src = .ok r ∧ writeBits c e.name src r = .ok c' ∧
    runBytes c' src = runBytes c src

/-- The generated readers extract what the machine does. -/
def Generated (p : Program) (run : Run) (r : Rho) (next : Kont) (m : Machine) : Prop :=
  ∃ info,
    collapseBitfield p.grammar.defaultLittleEndian run.container
      (Cek.compileBitfield run.container r next 0 run.entries) = .ok info ∧
    ∀ reader : Reader, reader.extract info p.bytes m.pos m.littleEndian =
      run.placed.map fun x => (x.2.name, extracted p run m x.1 x.2)

/-- **The bit fields agree** on a run compiled under `r`, in a grammar of the byte order `dflt` and where the live one
is `live`: whatever the input and the machine's state. -/
def Agrees (run : Run) (r : Rho) (next : Kont) (live dflt : Bool) : Prop :=
  ∀ (p : Program) (m : Machine), p.grammar.defaultLittleEndian = dflt → m.littleEndian = live → Fits p run m →
    (∀ name, ∃ c, recordedField p run name m = some c ∧ Recorded p run m c) ∧
    (m.builder = .empty → m.pos = 0 → ∀ c, recordedRoot p run m = some c → Recorded p run m c) ∧
    (∀ c, Holds run (run.msbFirst live) c p.bytes → ∀ o e, (o, e) ∈ run.placed → e.name ≠ "_" →
      Rewrites run (run.msbFirst live) c p.bytes e) ∧
    Generated p run r next m

/-! ## The record of a compiled run -/

section

variable {run : Run} {r : Rho} {next : Kont} {container : PrimitiveInfo} {be : Bool}

/-- Whether a `where` of the run is hard. -/
def hardIn (r : Rho) : Bool := isHard ((Cek.findBacktrackTarget r).getD .abortRule)

/-- The entries `collapse_bitfield` gets to. -/
def reached (hard : Bool) : List (Nat × BitfieldEntry) → List (Nat × BitfieldEntry)
  | [] => []
  | x :: xs => x :: if x.2.constraint.isSome && !hard then [] else reached hard xs

/-- The rest of the walk after an entry. -/
def walkAfter (container : PrimitiveInfo) (be : Bool) : Kont → Except Fault (List Member × Kont)
  | .evalConstraint e onFalse next =>
    if isHard onFalse then walk container be next else .ok ([], .evalConstraint e onFalse next)
  | after => walk container be after

theorem walk_extract {c : PrimitiveInfo} {w o : Nat} {s : Bool} {name : String} {after : Kont} (hname : name ≠ "") :
    walk container be (.extractBits c w o s (Cek.fieldDest name after)) = do
      let m ← member container be w o s (some name)
      let (ms, k) ← walkAfter container be after
      return (m :: ms, k) := by
  have hnull : Cek.nullable name = some name := by
    rw [Cek.nullable, if_neg]
    simpa using hname
  rw [Cek.fieldDest, hnull]
  split
  · rename_i h
    rw [h, walk]
    cases after with
    | evalConstraint e onFalse next =>
      simp only [walkAfter]
      cases isHard onFalse <;> rfl
    | _ => rfl
  · rw [walk]
    cases after with
    | evalConstraint e onFalse next =>
      simp only [walkAfter]
      cases isHard onFalse <;> rfl
    | _ => rfl

theorem member_eq {w o : Nat} (s : Bool) (name : String) (hw : w < 64) :
    ∃ mem, member container be w o s (some name) = .ok mem ∧ mem.target = name ∧
      mem.Reads (if be then container.byteCount * 8 - o - w else o) w s := by
  let start := if be then container.byteCount * 8 - o - w else o
  refine ⟨{ target := name, shift := start, mask := (1 <<< UInt64.ofNat w - 1).toInt64, start, stop := start + w
            isSigned := s }, ?_, rfl, ⟨rfl, ?_, rfl, rfl, rfl⟩⟩
  · rw [member, shl, if_pos hw]
    rfl
  · rw [UInt64.toBitVec_toInt64, UInt64.toBitVec_sub, toBitVec_shl hw]
    rfl

theorem member_undefined {w o : Nat} {s : Bool} {name : Option String} (hw : 64 ≤ w) :
    member container be w o s name = .error .undefined := by
  rw [member, shl, if_neg (by omega)]
  rfl

/-- What is after a `where`. -/
theorem walkAfter_wrapWhere (constraint : Option Expr) (es : List BitfieldEntry) (o : Nat) :
    walkAfter container be (Cek.wrapWhere constraint r (Cek.compileBitfield run.container r next o es)) =
      if constraint.isSome && !hardIn r then .ok ([], Cek.wrapWhere constraint r (Cek.compileBitfield run.container r next o es))
      else walk container be (Cek.compileBitfield run.container r next o es) := by
  cases constraint with
  | none => cases es <;> rfl
  | some e =>
    rw [Cek.wrapWhere, walkAfter, ← hardIn]
    cases hardIn r <;> rfl

/-- A member of the record, for an entry. -/
structure MemberOf (run : Run) (be : Bool) (mem : Member) (x : Nat × BitfieldEntry) : Prop where
  target : mem.target = x.2.name
  reads : mem.Reads (run.shift be x.1 x.2) x.2.width (x.2.sign == .signed)

/-- **The record** has the entries up to the first `where` that is not hard. -/
theorem walk_compileBitfield (o : Nat) (es : List BitfieldEntry) (hnarrow : ∀ e ∈ es, e.width < 64)
    (hnamed : ∀ e ∈ es, e.name ≠ "") :
    ∃ ms k, walk run.container be (Cek.compileBitfield run.container r next o es) = .ok (ms, k) ∧
      List.Forall₂ (MemberOf run be) ms (reached (hardIn r) (Run.offsets o es)) := by
  induction es generalizing o with
  | nil => exact ⟨[], _, rfl, .nil⟩
  | cons e es ih =>
    obtain ⟨mem, hmem, htarget, hreads⟩ : ∃ mem, member run.container be e.width o (e.sign == .signed) (some e.name) = .ok mem ∧ _ :=
      member_eq (e.sign == .signed) e.name (hnarrow e List.mem_cons_self)
    rw [Cek.compileBitfield, walk_extract (hnamed e List.mem_cons_self), hmem, walkAfter_wrapWhere]
    have hof : MemberOf run be mem (o, e) := ⟨htarget, hreads⟩
    by_cases hstop : (e.constraint.isSome && !hardIn r) = true
    · rw [if_pos hstop]
      refine ⟨[mem], _, rfl, ?_⟩
      rw [Run.offsets, reached, if_pos hstop]
      exact .cons hof .nil
    · obtain ⟨ms, k, hwalk, hall⟩ := ih (o + e.width) (fun e' he => hnarrow e' (List.mem_cons_of_mem _ he))
        fun e' he => hnamed e' (List.mem_cons_of_mem _ he)
      rw [if_neg hstop, hwalk]
      refine ⟨mem :: ms, k, rfl, ?_⟩
      rw [Run.offsets, reached, if_neg hstop]
      exact .cons hof hall

theorem reached_of_run (hard : Bool) (xs : List (Nat × BitfieldEntry)) : reached hard xs <+: xs := by
  induction xs with
  | nil => exact List.nil_prefix
  | cons x xs ih =>
    rw [reached]
    split
    · exact (List.prefix_cons_inj x).2 List.nil_prefix
    · exact (List.prefix_cons_inj x).2 ih

/-- Every entry is reached exactly if no `where` before the last entry is soft. -/
theorem reached_eq_iff (hard : Bool) (o : Nat) (es : List BitfieldEntry) :
    reached hard (Run.offsets o es) = Run.offsets o es ↔ ∀ e ∈ es.dropLast, e.constraint = none ∨ hard = true := by
  induction es generalizing o with
  | nil => simp [Run.offsets, reached]
  | cons e es ih =>
    rcases es with _ | ⟨e', es⟩
    · simp [Run.offsets, reached]
    · rw [Run.offsets, reached, List.dropLast_cons_cons, List.forall_mem_cons, ← ih (o + e.width), List.cons.injEq]
      cases hc : e.constraint <;> cases hard <;> simp [Run.offsets]

/-! ## When they agree -/

variable {live dflt : Bool}

/-- The record's byte order is the live one, or one entry takes it all. -/
def OrderKept (run : Run) (live dflt : Bool) : Prop :=
  run.container.endian = .default → live = dflt ∨ run.entries.length = 1

theorem OrderKept.shift_eq {o : Nat} {e : BitfieldEntry} (h : OrderKept run live dflt) (hx : (o, e) ∈ run.placed) :
    run.shift (run.msbFirst dflt) o e = run.shift (run.msbFirst live) o e := by
  by_cases hendian : run.container.endian = .default
  · rcases h hendian with rfl | hone
    · rfl
    · obtain ⟨e₀, he₀⟩ := List.length_eq_one_iff.1 hone
      have htotal := run.total
      rw [he₀, List.map_singleton, List.sum_singleton] at htotal
      rw [Run.placed, he₀] at hx
      obtain ⟨rfl, rfl⟩ := Prod.mk.inj (List.mem_singleton.1 hx)
      have hzero : ∀ b, run.shift b 0 e = 0 := by
        intro b
        rw [Run.shift, Machine.bitsShift]
        split <;> omega
      rw [hzero, hzero]
  · have hsame : run.msbFirst dflt = run.msbFirst live := by
      rw [Run.msbFirst, Run.msbFirst]
      cases hc : run.container.endian with
      | default => exact absurd hc hendian
      | _ => rfl
    rw [hsame]

theorem extract_of_forall₂ {p : Program} {m : Machine} {info : BitfieldInfo} {reader : Reader}
    {xs : List (Nat × BitfieldEntry)} {ms : List Member} {be : Bool} (hall : List.Forall₂ (MemberOf run be) ms xs)
    (hval : ∀ mem x, x ∈ xs → MemberOf run be mem x →
      reader.value info p.bytes m.pos m.littleEndian mem = extracted p run m x.1 x.2) :
    ms.map (fun mem => (mem.target, reader.value info p.bytes m.pos m.littleEndian mem)) =
      xs.map fun x => (x.2.name, extracted p run m x.1 x.2) := by
  induction hall with
  | nil => rfl
  | cons hm _ ih =>
    rw [List.map_cons, List.map_cons, hm.target, hval _ _ List.mem_cons_self hm,
      ih fun mem x hx => hval mem x (List.mem_cons_of_mem _ hx)]

theorem collapseBitfield_eq (hnarrow : run.Narrow) :
    ∃ info, collapseBitfield dflt run.container (Cek.compileBitfield run.container r next 0 run.entries) = .ok info ∧
      info.container = run.container ∧ info.be = run.msbFirst dflt ∧
      List.Forall₂ (MemberOf run (run.msbFirst dflt)) info.members (reached (hardIn r) run.placed) := by
  obtain ⟨ms, k, hwalk, hall⟩ :
      ∃ ms k, walk run.container (run.msbFirst dflt) (Cek.compileBitfield run.container r next 0 run.entries) = .ok (ms, k) ∧
        List.Forall₂ (MemberOf run (run.msbFirst dflt)) ms (reached (hardIn r) run.placed) :=
    walk_compileBitfield 0 run.entries hnarrow run.named
  have hbe : run.msbFirst dflt = (run.container.endian == .big || run.container.endian == .default && !dflt) := rfl
  refine ⟨⟨ms, run.container, run.msbFirst dflt, afterRun k, run.msbFirst dflt⟩, ?_, rfl, rfl, hall⟩
  rw [collapseBitfield, ← hbe, hwalk]
  rfl

/-- What a reader makes of a member, in terms of what the entry's bits say. -/
theorem reader_value {p : Program} {m : Machine} {info : BitfieldInfo} (hc : info.container = run.container)
    (hbe : info.be = run.msbFirst dflt) (hnarrow : run.Narrow) (hfit : Fits p run m) (reader : Reader) {mem : Member}
    {x : Nat × BitfieldEntry} (hx : x ∈ run.placed) (hm : MemberOf run (run.msbFirst dflt) mem x) :
    (reader.value info p.bytes m.pos m.littleEndian mem).toInt =
      number (x.2.sign == .signed)
        ((Run.word (run.msbFirst m.littleEndian) (bytesAt p.bytes m.pos run.container.byteCount)).extractLsb'
          (run.shift (run.msbFirst dflt) x.1 x.2) x.2.width) := by
  have hmem := mem_offsets hx
  exact reader.value_toInt hc hbe hm.reads (run.positive _ hmem) (hnarrow _ hmem) (shift_le hx)
    (Nat.le_trans hfit.1 hfit.2)

/-- Where the shifts are the live order's and every entry is in the record, the readers extract what the machine
does. -/
theorem generated_of (hnarrow : run.Narrow) (hreached : reached (hardIn r) run.placed = run.placed) {p : Program}
    {m : Machine} (hfit : Fits p run m) (horder : OrderKept run m.littleEndian p.grammar.defaultLittleEndian) :
    Generated p run r next m := by
  obtain ⟨info, hinfo, hc, hbe, hall⟩ := @collapseBitfield_eq run r next p.grammar.defaultLittleEndian hnarrow
  rw [hreached] at hall
  refine ⟨info, hinfo, fun reader => extract_of_forall₂ hall fun mem x hx hm => ?_⟩
  rw [← Int64.toInt_inj, reader_value hc hbe hnarrow hfit reader hx hm, extracted_toInt hx hnarrow,
    horder.shift_eq hx, Run.number]

/-- Every entry is in the record where the readers extract them all. -/
theorem reached_of {p : Program} {m : Machine} (hnarrow : run.Narrow) (h : Generated p run r next m) :
    reached (hardIn r) run.placed = run.placed := by
  obtain ⟨info, hinfo, -, -, hall⟩ := @collapseBitfield_eq run r next p.grammar.defaultLittleEndian hnarrow
  obtain ⟨info', hinfo', hextract⟩ := h
  cases hinfo.symm.trans hinfo'
  have hlen := congrArg List.length (hextract .viewC)
  rw [Reader.extract, List.length_map, List.length_map, hall.length_eq] at hlen
  exact (reached_of_run _ _).eq_of_length hlen

/-- A 64-bit entry is all of its run, and cannot be recorded. -/
theorem narrow_of {p : Program} {m : Machine} (h : Generated p run r next m) : run.Narrow := by
  intro e he
  by_contra hwide
  obtain ⟨info, hinfo, -⟩ := h
  have htotal := run.total
  have hcount := (byteCount_pos run).2
  rcases hes : run.entries with _ | ⟨e₁, es⟩
  · rw [hes] at he
    cases he
  · rw [hes, List.map_cons, List.sum_cons] at htotal
    have hfirst : 64 ≤ e₁.width := by
      rw [hes] at he
      rcases List.mem_cons.1 he with rfl | hin
      · omega
      · have hpos := run.positive e₁ (by rw [hes]; exact List.mem_cons_self)
        rw [← map_snd_offsets e₁.width es] at hin
        obtain ⟨x, hx, rfl⟩ := List.mem_map.1 hin
        have := offsets_bounds hx
        omega
    have hname := run.named e₁ (by rw [hes]; exact List.mem_cons_self)
    rw [hes, Cek.compileBitfield, collapseBitfield, walk_extract hname, member_undefined hfirst] at hinfo
    cases hinfo

/-! ### The byte order -/

theorem number_injective {n : Nat} {s : Bool} {b b' : BitVec n} (h : number s b = number s b') : b = b' := by
  cases s with
  | true => exact BitVec.toInt_inj.1 h
  | false => exact BitVec.eq_of_toNat_eq (Int.ofNat.inj h)

/-- An input of the bytes `bs`. -/
def probe (dflt : Bool) (bs : List UInt8) (h : bs.length < 2 ^ 63) : Program :=
  { grammar := { defaultLittleEndian := dflt, rules := [] }, bytes := bs, small := h, externs := none }

/-- A machine at its start, in the byte order `live`. -/
def probeAt (p : Program) (live : Bool) : Machine := { p.start .halt with littleEndian := live }

theorem fits_probe {bs : List UInt8} {h : bs.length < 2 ^ 63} (hlen : bs.length = run.container.byteCount) :
    Fits (probe dflt bs h) run (probeAt (probe dflt bs h) live) := by
  refine ⟨?_, Nat.le_refl _⟩
  show 0 + run.container.byteCount ≤ bs.length
  omega

/-- A container with one bit of its word set. -/
def oneBit (msb : Bool) (n k : Nat) : List UInt8 :=
  let bs := wordBytes n (1 <<< UInt64.ofNat k)
  if msb then bs.reverse else bs

theorem word_oneBit {msb : Bool} {n k : Nat} (hn : n ≤ 8) (hk : k < 8 * n) :
    Run.word msb (oneBit msb n k) = 1#64 <<< k ∧ (oneBit msb n k).length = n := by
  have hbytes := leNat_wordBytes (w := 1 <<< UInt64.ofNat k) hn
  have hword : wordOf (!msb) (oneBit msb n k) = leNat (wordBytes n (1 <<< UInt64.ofNat k)) := by
    cases msb with
    | false => rfl
    | true => exact congrArg leNat (List.reverse_reverse _)
  have hshift : ((1 : UInt64) <<< UInt64.ofNat k).toBitVec = 1#64 <<< k := toBitVec_shl (by omega)
  have hpow : 2 ^ k < 256 ^ n := by
    rw [show 256 = 2 ^ 8 from rfl, ← Nat.pow_mul]
    exact Nat.pow_lt_pow_right (by omega) hk
  have h64 : 2 ^ k < 2 ^ 64 := Nat.pow_lt_pow_right (by omega) (by omega)
  have hnat : ((1 : UInt64) <<< UInt64.ofNat k).toNat = 2 ^ k := by
    rw [← UInt64.toNat_toBitVec, hshift, BitVec.toNat_shiftLeft, BitVec.toNat_ofNat, Nat.shiftLeft_eq,
      show 1 % 2 ^ 64 = 1 from rfl, Nat.one_mul, Nat.mod_eq_of_lt h64]
  constructor
  · rw [Run.word, hword, hbytes, hnat, Nat.mod_eq_of_lt hpow, ← hshift, ← hnat]
    exact BitVec.eq_of_toNat_eq (by simp)
  · rw [oneBit]
    cases msb <;> simp [length_wordBytes]

/-- Where the order is not kept, an input tells the readers and the machine apart. -/
theorem order_of (hnarrow : run.Narrow) (hreached : reached (hardIn r) run.placed = run.placed)
    (h : ∀ p m, p.grammar.defaultLittleEndian = dflt → m.littleEndian = live → Fits p run m →
      Generated p run r next m) : OrderKept run live dflt := by
  intro hendian
  by_contra hne
  obtain ⟨hlive, hmany⟩ := not_or.1 hne
  obtain ⟨hpos8, hcount⟩ := byteCount_pos run
  obtain ⟨e, e', es, hes⟩ : ∃ e e' es, run.entries = e :: e' :: es := by
    rcases hes : run.entries with _ | ⟨e, _ | ⟨e', es⟩⟩
    · obtain ⟨x, xs, hx⟩ := placed_ne_nil run
      rw [Run.placed, hes] at hx
      cases hx
    · rw [hes] at hmany
      exact absurd rfl hmany
    · exact ⟨e, e', es, rfl⟩
  have hplaced : run.placed = (0, e) :: Run.offsets (0 + e.width) (e' :: es) := by rw [Run.placed, hes]; rfl
  have hx : (0, e) ∈ run.placed := by rw [hplaced]; exact List.mem_cons_self
  have hwidth : e.width < 8 * run.container.byteCount := by
    have htotal := run.total
    have hpos := run.positive e' (by rw [hes]; simp)
    rw [hes, List.map_cons, List.map_cons, List.sum_cons, List.sum_cons] at htotal
    omega
  have hposw := run.positive e (by rw [hes]; exact List.mem_cons_self)
  have hapart : run.shift (run.msbFirst live) 0 e ≠ run.shift (run.msbFirst dflt) 0 e := by
    rw [Run.shift, Run.shift, Machine.bitsShift, Machine.bitsShift, Run.msbFirst, Run.msbFirst, hendian]
    cases live <;> cases dflt <;> simp at hlive ⊢ <;> omega
  have hle : run.shift (run.msbFirst dflt) 0 e + e.width ≤ _ := shift_le hx
  have hone : run.shift (run.msbFirst dflt) 0 e < 8 * run.container.byteCount := by omega
  obtain ⟨hword, hlen⟩ := @word_oneBit (run.msbFirst live) _ _ hcount hone
  generalize hbs : oneBit (run.msbFirst live) run.container.byteCount (run.shift (run.msbFirst dflt) 0 e) = bs at *
  have hsmall : bs.length < 2 ^ 63 := by omega
  have hfit : Fits (probe dflt bs hsmall) run (probeAt (probe dflt bs hsmall) live) := fits_probe hlen
  obtain ⟨info, hinfo, hextract⟩ := h _ _ rfl rfl hfit
  obtain ⟨info', hinfo', hc, hbe, hall⟩ := @collapseBitfield_eq run r next dflt hnarrow
  cases hinfo.symm.trans hinfo'
  rw [hreached, hplaced] at hall
  obtain ⟨mem, ms, hmem, -, hms⟩ := List.forall₂_cons_right_iff.1 hall
  have hhead := hextract .viewC
  rw [Reader.extract, hms, hplaced, List.map_cons, List.map_cons, List.cons.injEq, Prod.mk.injEq] at hhead
  have hvalue := reader_value hc hbe hnarrow hfit .viewC hx hmem
  rw [hhead.1.2, extracted_toInt hx hnarrow, Run.number] at hvalue
  have hbytes : bytesAt (probe dflt bs hsmall).bytes (probeAt (probe dflt bs hsmall) live).pos
      run.container.byteCount = bs := by
    show (bs.drop 0).take run.container.byteCount = bs
    rw [List.drop_zero, ← hlen, List.take_length]
  -- the lowest bit of the record's entry is the one that is set
  have hbit := congrArg (fun b : BitVec e.width => b.getLsbD 0) (number_injective hvalue)
  rw [hbytes] at hbit
  change ((Run.word (run.msbFirst live) bs).extractLsb' (run.shift (run.msbFirst live) 0 e) e.width).getLsbD 0 =
    ((Run.word (run.msbFirst live) bs).extractLsb' (run.shift (run.msbFirst dflt) 0 e) e.width).getLsbD 0 at hbit
  rw [hword, BitVec.getLsbD_extractLsb', BitVec.getLsbD_extractLsb', ← BitVec.twoPow_eq, BitVec.getLsbD_twoPow,
    BitVec.getLsbD_twoPow] at hbit
  simp only [Nat.add_zero, hposw, decide_true, Bool.true_and] at hbit
  have h64 : run.shift (run.msbFirst dflt) 0 e < 64 := by omega
  simp [h64, Ne.symm hapart] at hbit

/-! ## The theorem -/

theorem recorded_of (hnarrow : run.Narrow) {p : Program} {m : Machine} (hfit : Fits p run m) {c : Node}
    (hc : RunNode p run m c) : Recorded p run m c := by
  refine ⟨hc.kids, fun o e hx hname => ?_⟩
  obtain ⟨v, hv, hval⟩ := (hc.holds hfit).readBits_eq hnarrow hx hname
  rw [hc.span, ← extracted_toInt hx hnarrow, Int64.toInt_inj] at hval
  rw [hv, hval]

theorem rewrites_of (hnarrow : run.Narrow) {msb : Bool} {c : Node} {src : List UInt8} (h : Holds run msb c src)
    {o : Nat} {e : BitfieldEntry} (hx : (o, e) ∈ run.placed) (hname : e.name ≠ "_") : Rewrites run msb c src e := by
  constructor
  · intro v
    obtain ⟨c', hc', hholds, hcut, hothers, -⟩ := h.writeBits_eq hnarrow hx hname v
    obtain ⟨r, hr, hval⟩ := hholds.readBits_eq hnarrow hx hname
    refine ⟨c', r, hc', hholds, hr, hval.trans hcut, fun o' e' hx' hname' hne => ?_⟩
    obtain ⟨v', hv', hval'⟩ := hholds.readBits_eq hnarrow hx' hname'
    obtain ⟨v₀, hv₀, hval₀⟩ := h.readBits_eq hnarrow hx' hname'
    have hsame : v' = v₀ := Int64.toInt_inj.1 (hval'.trans ((hothers o' e' hx' hne).trans hval₀.symm))
    rw [hv', hv₀, hsame]
  · obtain ⟨r, hr, hval⟩ := h.readBits_eq hnarrow hx hname
    obtain ⟨c', hc', -, -, -, hback⟩ := h.writeBits_eq hnarrow hx hname r
    exact ⟨r, c', hr, hc', hback hval⟩

end

/-- **When the bit fields agree**: no entry takes 64 bits; the live byte order is the grammar's default, or is not
what the container is read in, or the run is a single entry; and no `where` before the last entry fails into a
resync. -/
theorem bitfields_agree_iff (run : Run) (r : Rho) (next : Kont) (live dflt : Bool) :
    Agrees run r next live dflt ↔
      run.Narrow ∧ OrderKept run live dflt ∧
        ∀ e ∈ run.entries.dropLast, e.constraint = none ∨ hardIn r = true := by
  have hiff := reached_eq_iff (hardIn r) 0 run.entries
  constructor
  · intro h
    have hgen : ∀ p m, p.grammar.defaultLittleEndian = dflt → m.littleEndian = live → Fits p run m →
        Generated p run r next m := fun p m hd hl hfit => (h p m hd hl hfit).2.2.2
    have hzero : (List.replicate run.container.byteCount (0 : UInt8)).length < 2 ^ 63 := by
      have := (byteCount_pos run).2
      rw [List.length_replicate]
      omega
    have hprobe := hgen (probe dflt _ hzero) _ rfl rfl (fits_probe List.length_replicate : Fits _ run (probeAt _ live))
    have hnarrow := narrow_of hprobe
    have hreached := reached_of hnarrow hprobe
    exact ⟨hnarrow, order_of hnarrow hreached hgen, hiff.1 hreached⟩
  · rintro ⟨hnarrow, horder, hkept⟩ p m rfl rfl hfit
    refine ⟨fun name => ?_, fun hb hpos c hc => ?_, fun c hc o e hx hname => rewrites_of hnarrow hc hx hname,
      generated_of hnarrow (hiff.2 hkept) hfit horder⟩
    · obtain ⟨c, hc, hnode⟩ := recordedField_eq name hfit
      exact ⟨c, hc, recorded_of hnarrow hfit hnode⟩
    · exact recorded_of hnarrow hfit (recordedRoot_eq hfit hb hpos hc)

/-! ## Where they do not -/

/-- `bitfield<uint8> { hi: 4, lo: 4 }`. -/
def nibbles : Run where
  container := ⟨.integer, .w8, .unsigned, .default, .fixed⟩
  entries := [⟨"hi", .unsigned, 4, none⟩, ⟨"lo", .unsigned, 4, none⟩]
  integer := rfl
  fixed := rfl
  positive := by decide
  named := by decide
  distinct := by decide
  total := rfl

/-- `bitfield<uint64> { x: 64 signed }`. -/
def wide : Run where
  container := ⟨.integer, .w64, .unsigned, .little, .fixed⟩
  entries := [⟨"x", .signed, 64, none⟩]
  integer := rfl
  fixed := rfl
  positive := by decide
  named := by decide
  distinct := by decide
  total := rfl

/-- In a little-endian grammar, where a directive made the live order big, the machine reads 5 and 10 from the nibbles
of 5A and the readers 10 and 5; and no order helps a 64-bit entry. -/
theorem bitfields_disagree :
    (nibbles.placed.map fun x =>
        extracted (probe true [0x5a] (by decide)) nibbles (probeAt (probe true [0x5a] (by decide)) false) x.1 x.2) =
      [5, 10] ∧
    (collapseBitfield true nibbles.container
        (Cek.compileBitfield nibbles.container .root .halt 0 nibbles.entries)).map
      (fun info => Reader.viewCpp.extract info [0x5a] 0 false) = .ok [("hi", 10), ("lo", 5)] ∧
    ¬ Agrees nibbles .root .halt false true ∧
    (recordedField (probe true (List.replicate 8 0xff) (by decide)) wide (some "f")
        (probeAt (probe true (List.replicate 8 0xff) (by decide)) true)).map
      (fun c => readBits c "x" (List.replicate 8 0xff)) = some (.error .undefined) ∧
    collapseBitfield true wide.container (Cek.compileBitfield wide.container .root .halt 0 wide.entries) =
      .error .undefined ∧
    ¬ Agrees wide .root .halt true true := by
  refine ⟨by decide +kernel, by decide +kernel, ?_, by decide +kernel, rfl, ?_⟩
  · rw [bitfields_agree_iff]
    intro h
    exact absurd (h.2.1 rfl) (by decide)
  · rw [bitfields_agree_iff]
    intro h
    exact absurd h.1 (by decide)

end Bbq.Bits
