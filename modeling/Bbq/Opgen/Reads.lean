import Bbq.Opgen.Cache

/-!
# Cached operands are the operands

* The macros that read and write a register move what those of the operand stack move, when the slot class has one C type
  (`OneType`).
* `reads_sim`: cached operands and those in memory are the operands of the plain stencil, and what stays cached is what
  lies beneath them.
-/

namespace Bbq.Opgen

/-! ## Values -/

section

variable {floats : Scalar → Scalar → BitVec 64 → BitVec 64} {s u : Scalar}

@[simp] theorem narrow_narrow (w : Nat) (b : BitVec 64) : narrow w (narrow w b) = narrow w b := by
  unfold narrow
  congr 1
  ext i hi
  simp only [BitVec.getElem_setWidth, BitVec.getLsbD_setWidth]
  by_cases h : i < 64 <;> simp_all [BitVec.getLsbD_of_ge]

/-- Extending a value of a type keeps its low bits. -/
theorem narrow_extend (s : Scalar) (b : BitVec 64) : narrow (CInt.width s) (s.extend b) = narrow (CInt.width s) b := by
  unfold Scalar.extend
  split
  · unfold narrow
    congr 1
    ext i hi
    simp only [BitVec.getElem_setWidth, BitVec.getLsbD_signExtend, BitVec.getLsbD_setWidth]
    by_cases h : i < 64 <;> simp_all [BitVec.getLsbD_of_ge]
  · exact narrow_narrow _ _

/-- A register holds a value of the row: a float by its bits, an integer as an unsigned one of its width. -/
def Jrow.rides (r : Jrow) : Bool :=
  r.scalar.isFloat || r.scalar.isInteger && r.uscalar.isInteger && r.uscalar.bits == r.scalar.bits

theorem Scalar.load_number (h : s.isInteger = true ∨ s.isFloat = true) (e : Entry) :
    s.load e = .one (narrow (CInt.width s) e.lo) := by
  cases s <;> simp [Scalar.isInteger, Scalar.isFloat] at h <;> rfl

theorem Scalar.not_both (h : s.isFloat = true) : s.isInteger = false := by cases s <;> first | rfl | cases h

/-- A value of a number type converts to itself. -/
theorem convert_self (h : s.isInteger = true ∨ s.isFloat = true) (e : Entry) :
    convert floats (.scalar s) s (s.load e) = s.load e := by
  rw [Scalar.load_number h e]
  unfold convert
  rcases h with hint | hfloat
  · simp only [hint, Bool.and_self, if_true]
    rw [narrow_extend]
    exact congrArg Entry.one (narrow_narrow _ _)
  · simp only [Scalar.not_both hfloat, Bool.false_and, Bool.false_eq_true, if_false, if_true]
    rw [Scalar.load_number (.inr hfloat)]
    exact congrArg Entry.one (narrow_narrow _ _)

/-- A slot or a number converts to a number as one word. -/
theorem convert_number (h : s.isInteger = true ∨ s.isFloat = true) (src : CType) (e : Entry) :
    ∃ b, convert floats src s e = .one b := by
  unfold convert
  cases src with
  | slot => exact ⟨_, Scalar.load_number h e⟩
  | scalar t =>
    dsimp only
    split
    · exact ⟨_, rfl⟩
    · split
      · exact ⟨_, Scalar.load_number h e⟩
      · split
        · exact ⟨_, rfl⟩
        · exact ⟨_, Scalar.load_number h e⟩

/-- An integer type and the unsigned one of its width hold the same bits of what is not a float. -/
theorem convert_unsigned (hs : s.isInteger = true) (hu : u.isInteger = true) (hbits : u.bits = s.bits) {src : CType}
    (hsrc : src.isFloat = false) (e : Entry) : convert floats src u e = convert floats src s e := by
  have hwidth : CInt.width u = CInt.width s := congrArg (Option.getD · 64) hbits
  have hload : u.load e = s.load e := by rw [Scalar.load_number (.inl hs), Scalar.load_number (.inl hu), hwidth]
  unfold convert
  cases src with
  | slot => exact hload
  | scalar t =>
    dsimp only
    simp only [CType.isFloat] at hsrc
    have hu' : u.isFloat = false := by cases u <;> first | rfl | cases hu
    have hs' : s.isFloat = false := by cases s <;> first | rfl | cases hs
    simp only [hs, hu, hs', hu', hsrc, hwidth, hload, Bool.or_self, Bool.false_eq_true, if_false, Bool.and_true, ite_self]

end

/-! ## Slot macros -/

section

variable {m : Spec} {floats : Scalar → Scalar → BitVec 64 → BitVec 64} {t : ValueType}

/-- The macros of the slot class of a type move values of this type. -/
structure OneType (m : Spec) (t : ValueType) : Prop where
  popped : m.popScalar t = m.cScalar t
  wide : slotWidth t = 2 → m.cScalar t = .v128T
  single : slotWidth t ≠ 2 → m.getScalar t = m.cScalar t ∧ (m.cacheRow t).rides = true

theorem Jrow.rides_iff {r : Jrow} : r.rides = true ↔
    r.scalar.isFloat = true ∨ (r.scalar.isInteger = true ∧ r.uscalar.isInteger = true) ∧ r.uscalar.bits = r.scalar.bits := by
  simp [Jrow.rides]

theorem OneType.number (h : OneType m t) (ht : slotWidth t ≠ 2) :
    (m.cScalar t).isInteger = true ∨ (m.cScalar t).isFloat = true := by
  obtain ⟨hget, hrides⟩ := h.single ht
  rw [← hget]
  rcases Jrow.rides_iff.1 hrides with hfloat | ⟨⟨hint, -⟩, -⟩
  · exact .inr hfloat
  · exact .inl hint

/-- Neither a slot that is moved whole nor an address. -/
def ValueType.typed (t : ValueType) : Prop := slotClass t ≠ .word ∧ slotClass t ≠ .any

theorem popped_typed (h : OneType m t) (ht : t.typed) (e : Entry) :
    m.popped t e = ⟨.scalar (m.cScalar t), (m.cScalar t).load e⟩ := by
  unfold Spec.popped
  split
  case h_1 hw => exact absurd hw ht.1
  case h_2 ha => exact absurd ha ht.2
  case h_3 => rw [h.popped]

/-- **One register** is read as the value in memory is popped. -/
theorem gotten_eq_popped (h : OneType m t) (ht : t.typed) (h1 : slotWidth t ≠ 2) (b : BitVec 64) :
    m.gotten floats t b = m.popped t (.one b) := by
  rw [popped_typed h ht]
  unfold Spec.gotten
  rw [(h.single h1).1, convert_self (h.number h1)]

theorem convert_wide (lo hi : BitVec 64) : convert floats (.scalar .v128T) .v128T (.wide lo hi) = .wide lo hi := rfl

/-- **A pair of registers** is read as the value in memory is popped. -/
theorem wideVar_eq_popped (h : OneType m t) (ht : t.typed) (h2 : slotWidth t = 2) (lo hi : BitVec 64) :
    m.wideVar floats t lo hi = m.popped t (.wide lo hi) := by
  have hword : t ≠ .word := by rintro rfl; exact ht.1 rfl
  rw [popped_typed h ht]
  unfold Spec.wideVar
  rw [if_neg hword, h.wide h2, convert_wide]
  rfl

/-- **A register takes** what would be pushed. -/
theorem put_eq_push (h : OneType m t) (h1 : slotWidth t ≠ 2) {src : CType}
    (hsrc : src.isFloat = true → (m.cScalar t).isFloat = true) (e : Entry) :
    Entry.one (convert floats src (m.putScalar t) e).lo = convert floats src (m.popScalar t) e := by
  obtain ⟨hget, hrides⟩ := h.single h1
  have hput : convert floats src (m.putScalar t) e = convert floats src (m.cScalar t) e := by
    unfold Spec.putScalar
    unfold Spec.getScalar at hget
    rcases Jrow.rides_iff.1 hrides with hfloat | ⟨⟨hint, huint⟩, hbits⟩
    · rw [if_pos hfloat, hget]
    · have hnot : (m.cacheRow t).scalar.isFloat = false := by
        cases hs : (m.cacheRow t).scalar <;> rw [hs] at hint <;> first | rfl | cases hint
      rw [if_neg (by rw [hnot]; exact Bool.false_ne_true), ← hget]
      refine convert_unsigned hint huint hbits ?_ e
      cases hf : src.isFloat with
      | false => rfl
      | true => exact absurd (hsrc hf) (by rw [← hget, hnot]; exact Bool.false_ne_true)
  obtain ⟨b, hb⟩ := convert_number (h.number h1) src e
  rw [hput, h.popped, hb]
  rfl

end

/-! ## Operands -/

section

variable {op : Opcode} {regs : Nat → BitVec 64} {base s : Nat}

theorem Env.live_set {env env' : Env} (h : env.live op = env'.live op) (x : String) (v : Var) :
    (env.set x v).live op = (env'.set x v).live op := by
  funext y
  have hy := congrFun h y
  unfold Env.live Env.set at *
  split <;> rename_i hm
  · rw [if_pos hm, if_pos hm] at hy
    split
    · rfl
    · exact hy
  · rfl

theorem Env.live_set_dead {env : Env} {x : String} (hx : op.mentions x = false) (v : Var) :
    (env.set x v).live op = env.live op := by
  funext y
  unfold Env.live Env.set
  by_cases hy : y = x
  · rw [hy, hx]
    rfl
  · rw [if_neg hy]

/-- `p` is what the reads of the plain stencil left, `v` those of a variant: the registers from `base` on hold what lies
between. -/
structure Behind (op : Opcode) (regs : Nat → BitVec 64) (base s : Nat) (p v : Operands) : Prop where
  mem : ∃ cached, p.mem = cached ++ v.mem ∧ cached.flatMap Entry.words = (List.range' base (s - base)).map regs
  env : p.env.live op = v.env.live op
  variadic : p.variadic = v.variadic

theorem words_ne_nil (e : Entry) : e.words ≠ [] := by cases e <;> exact List.cons_ne_nil _ _

theorem flatMap_words_eq_nil {cached : List Entry} (h : cached.flatMap Entry.words = []) : cached = [] := by
  cases cached with
  | nil => rfl
  | cons e es =>
    rw [List.flatMap_cons, List.append_eq_nil_iff] at h
    exact absurd h.1 (words_ne_nil e)

/-- Past the cached slots both have the same in memory. -/
theorem Behind.mem_eq {p v : Operands} (h : Behind op regs base s p v) (hle : s ≤ base) : p.mem = v.mem := by
  obtain ⟨cached, hmem, hwords⟩ := h.mem
  rw [Nat.sub_eq_zero_of_le hle, List.range'_zero, List.map_nil] at hwords
  rw [hmem, flatMap_words_eq_nil hwords, List.nil_append]

theorem Behind.of_eq {p v : Operands} (hmem : p.mem = v.mem) (henv : p.env.live op = v.env.live op)
    (hvariadic : p.variadic = v.variadic) (hle : s ≤ base) : Behind op regs base s p v where
  mem := ⟨[], hmem, by rw [Nat.sub_eq_zero_of_le hle]; rfl⟩
  env := henv
  variadic := hvariadic

/-- The value that starts at `base`: `w` registers hold it. -/
theorem Behind.uncons {p v : Operands} (h : Behind op regs base s p v) (hlt : base < s) :
    ∃ e mem, p.mem = e :: mem ∧ e.words = (List.range' base e.slots).map regs ∧
      ∀ p' v' : Operands, p'.mem = mem → v'.mem = v.mem → p'.env.live op = v'.env.live op →
        p'.variadic = v'.variadic → Behind op regs (base + e.slots) s p' v' := by
  obtain ⟨cached, hmem, hwords⟩ := h.mem
  cases cached with
  | nil =>
    obtain ⟨k, hk⟩ : ∃ k, s - base = k + 1 := ⟨s - base - 1, by omega⟩
    rw [hk] at hwords
    exact absurd hwords.symm (by simp [List.range'_succ])
  | cons e cached =>
    rw [List.flatMap_cons] at hwords
    have hlen : e.slots ≤ s - base := by
      have := congrArg List.length hwords
      rw [List.length_append, List.length_map, List.length_range'] at this
      unfold Entry.slots
      omega
    have hsplit : List.range' base (s - base) =
        List.range' base e.slots ++ List.range' (base + e.slots) (s - (base + e.slots)) := by
      rw [List.range'_append_1]
      congr 1
      omega
    rw [hsplit, List.map_append] at hwords
    obtain ⟨hhead, htail⟩ := List.append_inj hwords (by rw [List.length_map, List.length_range']; rfl)
    exact ⟨e, cached ++ v.mem, hmem, hhead, fun p' v' hp hv henv hvar =>
      ⟨⟨cached, by rw [hp, hv], htail⟩, henv, hvar⟩⟩

end

section

variable {m : Spec} {pw : Bool} {op : VmOpcode} {W : Type} {B : Body W} {regs junk : Nat → BitVec 64} {w : W}
  {base s : Nat} {si : StackParam} {o v : Operands}

/-- The variable that a value in memory is popped into. -/
def memVar (m : Spec) (op : VmOpcode) (B : Body W) (w : W) (o : Operands) (si : StackParam) (e : Entry) : Var :=
  if si.ty = .addr then addrVar (B.is64 si (o.env.live op.toOpcode) w) e.lo else m.popped si.ty e

theorem Operands.bind_env (o : Operands) (si : StackParam) (x : Var) : (o.bind si x).env = o.env.set si.name x := rfl

theorem plain_read {e : Entry} {mem : List Entry} (hcount : si.count = none) (hmem : o.mem = e :: mem) :
    (readOf pw op.toOpcode none (si, base)).run m op B junk w o =
      some (if op.stackInLive si then Operands.bind { o with mem } si (memVar m op B w o si e) else { o with mem }) := by
  unfold readOf memVar
  simp only [hcount, Option.isSome_none, Bool.false_eq_true, if_false, Option.bind_none, beq_iff_eq]
  cases hlive : op.stackInLive si with
  | false =>
    simp only [Bool.not_false, if_true, Read.run, hmem, popEntry, Bool.false_eq_true, if_false]
  | true =>
    simp only [Bool.not_true, Bool.false_eq_true, if_false, if_true]
    split
    · simp only [Read.run, hmem, popEntry]
    · simp only [Read.run, hmem, popEntry]

theorem words_one {e : Entry} (h : e.words = (List.range' base e.slots).map regs) (h1 : e.slots = 1) :
    e = .one (regs base) := by
  cases e with
  | one b => exact congrArg Entry.one (List.cons.inj h).1
  | wide => cases h1

theorem words_two {e : Entry} (h : e.words = (List.range' base e.slots).map regs) (h2 : e.slots = 2) :
    e = .wide (regs base) (regs (base + 1)) := by
  cases e with
  | one => cases h2
  | wide lo hi =>
    obtain ⟨hlo, htail⟩ := List.cons.inj h
    exact congrArg₂ Entry.wide hlo (List.cons.inj htail).1

theorem cacheable_typed {t : ValueType} (h : t.cacheable = true) : t.typed := by
  unfold ValueType.typed
  revert h
  cases t <;> decide

theorem swidth_of_ne_word {t : ValueType} (h : t ≠ .word) : swidth pw t = slotWidth t := by
  unfold swidth
  rw [if_neg]
  simp [h]

theorem slotWidth_le_two (t : ValueType) : slotWidth t = 1 ∨ slotWidth t = 2 := by cases t <;> decide

theorem swidth_cases (t : ValueType) : swidth pw t = 1 ∨ swidth pw t = 2 := by
  unfold swidth
  split
  · exact .inr rfl
  · exact slotWidth_le_two t

/-- An operand in a register has the types it needs. -/
structure Rides (m : Spec) (t : ValueType) : Prop where
  kind : t = .addr ∨ t = .word ∨ t.cacheable = true
  macros : t.cacheable = true → OneType m t

theorem cached_read {e : Entry} (hcount : si.count = none) (hcov : base + swidth pw si.ty ≤ s) (hr : Rides m si.ty)
    (hwords : e.words = (List.range' base e.slots).map regs) (hslots : e.slots = swidth pw si.ty) :
    (readOf pw op.toOpcode (some s) (si, base)).run m op B regs w v = some (v.bind si (memVar m op B w v si e)) := by
  unfold readOf memVar
  have hslot : operandSlot pw (si, base) s = some base := if_pos hcov
  simp only [hcount, Option.isSome_none, Bool.false_eq_true, if_false, Option.bind_some, hslot, beq_iff_eq]
  by_cases haddr : si.ty = .addr
  · have h1 : e.slots = 1 := by rw [hslots, haddr]; cases pw <;> rfl
    simp only [if_pos haddr, Read.run]
    rw [words_one hwords h1]
    rfl
  · simp only [if_neg haddr]
    rcases swidth_cases si.ty with h1 | h2
    · rw [h1] at hslots
      rw [if_neg (by omega), words_one hwords hslots]
      split
      case isTrue hword => simp only [Read.run, hword, Spec.popped, slotClass]
      case isFalse hword =>
        have hc : si.ty.cacheable = true := (hr.kind.resolve_left haddr).resolve_left hword
        have hne : slotWidth si.ty ≠ 2 := by rw [← swidth_of_ne_word hword, h1]; decide
        simp only [Read.run]
        rw [gotten_eq_popped (hr.macros hc) (cacheable_typed hc) hne]
    · rw [h2] at hslots
      rw [if_pos h2, words_two hwords hslots]
      simp only [Read.run]
      by_cases hword : si.ty = .word
      · simp only [hword, Spec.wideVar, if_true, Spec.popped, slotClass]
      · have hc : si.ty.cacheable = true := (hr.kind.resolve_left haddr).resolve_left hword
        rw [wideVar_eq_popped (hr.macros hc) (cacheable_typed hc) ((swidth_of_ne_word hword).symm.trans h2)]

/-- **A cached operand** is the one that the plain stencil pops. -/
theorem read_covered (hcount : si.count = none) (hcov : base + swidth pw si.ty ≤ s) (hr : Rides m si.ty)
    (htyped : ∀ e mem, o.mem = e :: mem → e.slots = swidth pw si.ty) (hB : Behind op.toOpcode regs base s o v) :
    ∃ o' v' : Operands, (readOf pw op.toOpcode none (si, base)).run m op B junk w o = some o' ∧
      (readOf pw op.toOpcode (some s) (si, base)).run m op B regs w v = some v' ∧
      Behind op.toOpcode regs (base + swidth pw si.ty) s o' v' ∧ o'.mem = o.mem.tail ∧ o'.variadic = o.variadic := by
  obtain ⟨e, mem, hmem, hwords, hnext⟩ := hB.uncons (by have := swidth_pos pw si.ty; omega)
  have hslots := htyped e mem hmem
  have hvar : memVar m op B w o si e = memVar m op B w v si e := by
    unfold memVar
    rw [hB.env]
  refine ⟨_, _, plain_read hcount hmem, cached_read hcount hcov hr hwords hslots, ?_, ?_, ?_⟩
  · rw [← hslots]
    cases hlive : op.stackInLive si with
    | true =>
      refine hnext _ _ rfl rfl ?_ hB.variadic
      simp only [if_true, Operands.bind_env, hvar]
      exact Env.live_set hB.env _ _
    | false =>
      rw [Opcode.stackInLive_eq] at hlive
      refine hnext _ _ rfl rfl ?_ hB.variadic
      simp only [Bool.false_eq_true, if_false, Operands.bind_env]
      rw [Env.live_set_dead hlive]
      exact hB.env
  · rw [hmem]
    split <;> rfl
  · split <;> rfl

/-- An operand in memory is popped by both. -/
theorem read_uncovered (hle : s ≤ base) (hB : Behind op.toOpcode regs base s o v) :
    ((readOf pw op.toOpcode none (si, base)).run m op B junk w o = none ∧
        (readOf pw op.toOpcode (some s) (si, base)).run m op B regs w v = none) ∨
      ∃ o' v' : Operands, (readOf pw op.toOpcode none (si, base)).run m op B junk w o = some o' ∧
        (readOf pw op.toOpcode (some s) (si, base)).run m op B regs w v = some v' ∧
        Behind op.toOpcode regs (base + swidth pw si.ty) s o' v' := by
  have hmem := hB.mem_eq hle
  have hslot : operandSlot pw (si, base) s = none := if_neg (by have := swidth_pos pw si.ty; dsimp only; omega)
  have hread : readOf pw op.toOpcode (some s) (si, base) = readOf pw op.toOpcode none (si, base) := by
    unfold readOf
    rw [Option.bind_some, Option.bind_none, hslot]
  have hnext : ∀ {o' v' : Operands}, o'.mem = v'.mem → o'.env.live op.toOpcode = v'.env.live op.toOpcode →
      o'.variadic = v'.variadic → Behind op.toOpcode regs (base + swidth pw si.ty) s o' v' :=
    fun hm he hv => Behind.of_eq hm he hv (by omega)
  rw [hread]
  cases hcount : si.count with
  | some c =>
    have hvariadic : readOf pw op.toOpcode none (si, base) = .variadic si := by
      unfold readOf
      simp only [hcount, Option.isSome_some, if_true]
    rw [hvariadic]
    refine .inr ⟨_, _, rfl, rfl, hnext ?_ hB.env ?_⟩
    · simp only [hB.env, hmem]
    · simp only [hB.env, hmem, hB.variadic]
  | none =>
    cases hv : v.mem with
    | nil =>
      left
      rw [hv] at hmem
      unfold readOf
      simp only [hcount, Option.isSome_none, Bool.false_eq_true, if_false, Option.bind_none, beq_iff_eq]
      split
      · simp only [Read.run, hmem, hv, popEntry, and_self]
      · split
        · simp only [Read.run, hmem, hv, popEntry, and_self]
        · simp only [Read.run, hmem, hv, popEntry, and_self]
    | cons e mem =>
      right
      have hvar : memVar m op B w o si e = memVar m op B w v si e := by
        unfold memVar
        rw [hB.env]
      refine ⟨_, _, plain_read hcount (hmem.trans hv), plain_read hcount hv, hnext ?_ ?_ ?_⟩
      · split <;> rfl
      · rw [hvar]
        split
        · exact Env.live_set hB.env _ _
        · exact hB.env
      · split
        · exact hB.variadic
        · exact hB.variadic

/-- Where the cached slots end: above the operands, below them, or between two of them. -/
def Ends (pw : Bool) (s base : Nat) (ps : List StackParam) : Prop :=
  s ≤ base ∨ base + (ps.map fun p => swidth pw p.ty).sum ≤ s ∨ boundary pw s base ps = true

theorem Ends.cons {ps : List StackParam} (h : Ends pw s base (si :: ps)) :
    s ≤ base ∨ base + swidth pw si.ty ≤ s ∧ Ends pw s (base + swidth pw si.ty) ps := by
  rcases h with hle | hall | hb
  · exact .inl hle
  · rw [List.map_cons, List.sum_cons, ← Nat.add_assoc] at hall
    exact .inr ⟨Nat.le_trans (Nat.le_add_right _ _) hall, .inr (.inl hall)⟩
  · unfold boundary at hb
    split at hb
    · have hs := beq_iff_eq.1 hb
      exact .inr ⟨Nat.le_of_eq hs, .inl (Nat.le_of_eq hs.symm)⟩
    · next hlt => exact .inr ⟨by omega, .inr (.inr hb)⟩

theorem le_of_mem_positions {ps : List StackParam} {base : Nat} {p : StackParam × Nat} (hp : p ∈ positions pw base ps) :
    base ≤ p.2 := by
  induction ps generalizing base with
  | nil => cases hp
  | cons si ps ih =>
    rcases List.mem_cons.mp hp with rfl | hp
    · exact Nat.le_refl _
    · exact Nat.le_trans (Nat.le_add_right _ _) (ih hp)

theorem uncovered_later {ps : List StackParam} {base' : Nat} {p : StackParam × Nat} (hle : s ≤ base)
    (hp : p ∈ positions pw (base + base') ps) : operandSlot pw p s = none := by
  have := le_of_mem_positions hp
  have := swidth_pos pw p.1.ty
  exact if_neg (by omega)

/-- **Both stencils read the same operands**, and what stays cached is what lies beneath them. -/
theorem reads_sim : ∀ (ps : List StackParam) (base : Nat) (o v : Operands), Ends pw s base ps →
    (∀ p ∈ positions pw base ps, (operandSlot pw p s).isSome → p.1.count = none ∧ Rides m p.1.ty) →
    (∀ pe ∈ (positions pw base ps).zip o.mem, (operandSlot pw pe.1 s).isSome → pe.2.slots = swidth pw pe.1.1.ty) →
    Behind op.toOpcode regs base s o v →
    (runReads m op B junk w ((positions pw base ps).map (readOf pw op.toOpcode none)) o = none ∧
        runReads m op B regs w ((positions pw base ps).map (readOf pw op.toOpcode (some s))) v = none) ∨
      ∃ o' v' : Operands, runReads m op B junk w ((positions pw base ps).map (readOf pw op.toOpcode none)) o = some o' ∧
        runReads m op B regs w ((positions pw base ps).map (readOf pw op.toOpcode (some s))) v = some v' ∧
        Behind op.toOpcode regs (base + (ps.map fun p => swidth pw p.ty).sum) s o' v'
  | [], base, o, v, _, _, _, hB => .inr ⟨o, v, rfl, rfl, hB⟩
  | si :: ps, base, o, v, hends, hride, htyped, hB => by
    rw [positions, List.map_cons, List.map_cons, List.map_cons, List.sum_cons, ← Nat.add_assoc, runReads, runReads]
    have hrest : ∀ o' v' : Operands, Ends pw s (base + swidth pw si.ty) ps →
        (∀ pe ∈ (positions pw (base + swidth pw si.ty) ps).zip o'.mem,
          (operandSlot pw pe.1 s).isSome → pe.2.slots = swidth pw pe.1.1.ty) →
        Behind op.toOpcode regs (base + swidth pw si.ty) s o' v' → _ :=
      fun o' v' he ht hb => reads_sim ps (base + swidth pw si.ty) o' v' he
        (fun p hp => hride p (List.mem_cons_of_mem _ hp)) ht hb
    rcases hends.cons with hle | ⟨hcov, hends'⟩
    · rcases read_uncovered hle hB with ⟨hp, hv⟩ | ⟨o', v', hp, hv, hB'⟩
      · rw [hp, hv]
        exact .inl ⟨rfl, rfl⟩
      · rw [hp, hv]
        refine hrest o' v' (.inl (by omega)) (fun pe hpe hsome => ?_) hB'
        exact absurd hsome (by rw [uncovered_later hle (List.of_mem_zip hpe).1]; decide)
    · obtain ⟨hcount, hr⟩ := hride (si, base) List.mem_cons_self (by rw [operandSlot, if_pos hcov]; rfl)
      have hhead : ∀ e mem, o.mem = e :: mem → e.slots = swidth pw si.ty := by
        intro e mem hmem
        refine htyped ((si, base), e) ?_ (by rw [operandSlot, if_pos hcov]; rfl)
        rw [positions, hmem]
        exact List.mem_cons_self
      obtain ⟨o', v', hp, hv, hB', htail, -⟩ := read_covered hcount hcov hr hhead hB
      rw [hp, hv]
      refine hrest o' v' hends' (fun pe hpe hsome => htyped pe ?_ hsome) hB'
      rw [htail] at hpe
      cases hm : o.mem with
      | nil =>
        rw [hm, List.tail_nil, List.zip_nil_right] at hpe
        cases hpe
      | cons e mem =>
        rw [hm, List.tail_cons] at hpe
        rw [positions]
        exact List.mem_cons_of_mem _ hpe

end

end Bbq.Opgen
