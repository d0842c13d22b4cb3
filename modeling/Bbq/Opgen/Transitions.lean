import Bbq.Opgen.Simulate

/-!
# Cache states

Spills and fills, which change only how much of the operand stack is cached, and the stencils that the tables name between
them (`variant_simulates`).
-/

namespace Bbq.Opgen

/-! ## Spill and fill -/

section

variable {m : Spec} {d : TypeDecl} {slot : Nat} {W : Type} {M : Machine W} {stack : List Entry}
  {floats : Scalar → Scalar → BitVec 64 → BitVec 64}

/-- A value of the row. -/
structure OfRow (m : Spec) (d : TypeDecl) (e : Entry) : Prop where
  slots : e.slots = slotWidth d.ty
  typed : (m.cScalar d.ty).load e = e

/-- The values above `slot` are cached, and the next one is of the row. -/
def At (m : Spec) (d : TypeDecl) (slot : Nat) (rest stack : List Entry) : Prop :=
  ∃ cached e, stack = cached ++ e :: rest ∧ (cached.flatMap Entry.words).length = slot ∧ OfRow m d e

theorem OfRow.load_popScalar {e : Entry} (he : OfRow m d e) (h : OneType m d.ty) : (m.popScalar d.ty).load e = e := by
  rw [h.popped, he.typed]

/-- The value that a spill pushes. -/
theorem spilled {e : Entry} (he : OfRow m d e) (h : OneType m d.ty)
    (hwords : e.words = (List.range' slot e.slots).map M.regs) : spill m floats d slot M = { M with mem := e :: M.mem } := by
  unfold spill
  have hslots := he.slots
  rcases slotWidth_le_two d.ty with h1 | h2
  · have hne : slotWidth d.ty ≠ 2 := by rw [h1]; decide
    have hone := words_one hwords (hslots.trans h1)
    rw [if_neg hne, h.popped, (h.single hne).1, convert_self (h.number hne), ← hone, he.typed]
  · have htwo := words_two hwords (hslots.trans h2)
    rw [if_pos h2, h.popped, h.wide h2, convert_wide, ← htwo]

/-- **A spill keeps the operand stack.** -/
theorem spill_keeps (h : OneType m d.ty) (hrep : Represents M.regs (slot + slotWidth d.ty) M.mem stack)
    (hat : At m d slot M.mem stack) :
    (spill m floats d slot M).world = M.world ∧
      Represents (spill m floats d slot M).regs slot (spill m floats d slot M).mem stack := by
  obtain ⟨all, hall, hwords⟩ := hrep
  obtain ⟨cached, e, hstack, hlen, he⟩ := hat
  obtain rfl : all = cached ++ [e] := by
    refine (List.append_left_inj M.mem).1 ?_
    rw [← hall, hstack, List.append_assoc, List.singleton_append]
  have hsplit : List.range (slot + slotWidth d.ty) = List.range slot ++ List.range' slot (slotWidth d.ty) := by
    rw [List.range_eq_range', List.range_eq_range', ← List.range'_append_1, Nat.zero_add]
  rw [List.flatMap_append, hsplit, List.map_append] at hwords
  obtain ⟨hhead, htail⟩ := List.append_inj hwords (by rw [hlen, List.length_map, List.length_range])
  rw [List.flatMap_singleton, ← he.slots] at htail
  rw [spilled he h htail]
  exact ⟨rfl, cached, hstack, hhead⟩

/-- What a fill writes to the registers. -/
theorem filled {e : Entry} {mem : List Entry} (he : OfRow m d e) (h : OneType m d.ty) (hmem : M.mem = e :: mem) :
    ∃ R, fill m floats d slot M = some { M with regs := R, mem := mem } ∧ (∀ r < slot, R r = M.regs r) ∧
      e.words = (List.range' slot (slotWidth d.ty)).map R := by
  unfold fill
  rw [hmem]
  simp only [he.load_popScalar h]
  have hslots := he.slots
  rcases slotWidth_le_two d.ty with h1 | h2
  · have hne : slotWidth d.ty ≠ 2 := by rw [h1]; decide
    have hput : Entry.one (convert floats (.scalar (m.popScalar d.ty)) (m.putScalar d.ty) e).lo = e := by
      have hfloat : (CType.scalar (m.popScalar d.ty)).isFloat = true → (m.cScalar d.ty).isFloat = true := by
        rw [h.popped]
        exact id
      rw [put_eq_push h hne hfloat, h.popped]
      conv_lhs => rw [← he.typed]
      rw [convert_self (h.number hne), he.typed]
    rw [if_neg hne]
    refine ⟨_, rfl, fun r hr => Function.update_of_ne (by omega) _ _, ?_⟩
    rw [h1, List.range'_one, List.map_singleton, Function.update_self]
    exact (congrArg Entry.words hput).symm
  · rw [if_pos h2]
    refine ⟨_, rfl, fun r hr => ?_, ?_⟩
    · rw [Function.update_of_ne (by omega), Function.update_of_ne (by omega)]
    · rw [h2]
      simp only [List.range', List.map_cons, List.map_nil, Function.update_self]
      rw [Function.update_of_ne (by omega), Function.update_self]
      exact congrArg Entry.words (slots_two (hslots.trans h2))

/-- **A fill keeps the operand stack.** -/
theorem fill_keeps {e : Entry} {mem : List Entry} (h : OneType m d.ty) (he : OfRow m d e) (hmem : M.mem = e :: mem)
    (hrep : Represents M.regs slot M.mem stack) :
    ∃ M', fill m floats d slot M = some M' ∧ M'.world = M.world ∧
      Represents M'.regs (slot + slotWidth d.ty) M'.mem stack := by
  obtain ⟨R, hfill, hbelow, hwords⟩ := filled he h hmem
  obtain ⟨cached, hstack, hcached⟩ := hrep
  refine ⟨_, hfill, rfl, cached ++ [e], ?_, ?_⟩
  · rw [hstack, hmem, List.append_assoc, List.singleton_append]
  · have hkept : (List.range slot).map R = (List.range slot).map M.regs :=
      List.map_congr_left fun r hr => hbelow r (List.mem_range.1 hr)
    rw [List.flatMap_append, List.flatMap_singleton, hcached, hwords, ← hkept, ← List.map_append, List.range_eq_range',
      List.range_eq_range', ← List.range'_append_1, Nat.zero_add]

end

/-! ## Cache states -/

section

variable {m : Spec} {n : Nat} {pw : Bool} {op : VmOpcode} {W : Type} {B : Body W} {st : Nat} {memResult : Bool}

/-- Every spill and fill of a row keeps the represented operand stack. -/
def TransitionsKeep (m : Spec) (W : Type) : Prop :=
  ∀ d ∈ m.types, d.ty.cacheable = true → OneType m d.ty → ∀ floats slot (M : Machine W) stack,
    (Represents M.regs (slot + slotWidth d.ty) M.mem stack → At m d slot M.mem stack →
      (spill m floats d slot M).world = M.world ∧
        Represents (spill m floats d slot M).regs slot (spill m floats d slot M).mem stack) ∧
    ∀ e mem, M.mem = e :: mem → OfRow m d e → Represents M.regs slot M.mem stack →
      ∃ M', fill m floats d slot M = some M' ∧ M'.world = M.world ∧
        Represents M'.regs (slot + slotWidth d.ty) M'.mem stack

end

/-! ## Two opcodes -/

/-- `type i32 s4 u4 1 i`. -/
def intSpec : Spec := { types := [⟨.i32, ⟨.s4, .u4, 1, 'i'⟩⟩], opcodes := [] }

def wordParam (name : String) (semExpr : Option String) : StackParam := ⟨.word, name, semExpr, none, none⟩

def intParam (name : String) : StackParam := ⟨.i32, name, none, none, none⟩

/-- What the variables of a text hold, of which the body sets one. -/
def settingBody (x : String) (value : Env → Entry) : Body Unit where
  imm _ := none
  is64 _ _ _ := false
  count _ _ _ := 0
  run env _ mem w := .done (fun y => if y = x then value env else (env y).elim (.one 0) Var.val) mem w
  exposed _ _ _ := []
  floats _ _ b := b

/-- `inc (i32 a -- i32 r)` with the body `r = a + 1;`. -/
def inc : VmOpcode where
  mnemonic := "inc"
  operands := []
  stackIn := [intParam "a"]
  stackOut := [intParam "r"]
  errors := []
  semBody := [.assign (.ident "r") (.binOp "+" (.ident "a") (.int 1))]
  popsFirst := false

def incBody : Body Unit := settingBody "r" fun env => .one (narrow 32 (((env "a").elim (.one 0) Var.val).lo + 1))

theorem inc_safe : CacheSafe intSpec 2 false inc incBody 2 false where
  single _ := by decide
  operands p hp _ _ := by
    obtain rfl := List.mem_singleton.1 hp
    exact ⟨by decide, by decide, by decide⟩
  results _ so hso _ := by
    obtain rfl := List.mem_singleton.1 hso
    refine ⟨⟨by decide, by decide, by decide⟩, ?_⟩
    rintro (⟨si, hsi, -, hfloat⟩ | ⟨v, hv, -⟩ | hfloat)
    · obtain rfl := List.mem_singleton.1 hsi
      exact absurd hfloat (by decide)
    · cases hv
    · exact absurd hfloat (by decide)
  stays := .inl fun _ _ _ _ _ _ h => by cases h

/-- `dup (word a -- word a = "a", word b = "a")`. -/
def dup : VmOpcode where
  mnemonic := "dup"
  operands := []
  stackIn := [wordParam "a" none]
  stackOut := [wordParam "a" (some "\"a\""), wordParam "b" (some "\"a\"")]
  errors := []
  semBody := []
  popsFirst := false

def dupBody : Body Unit := settingBody "" fun _ => .one 0

end Bbq.Opgen
