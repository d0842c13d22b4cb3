import Bbq.Opgen.Kernel

/-!
# Cache-state stencils

What `opgen` decides of a stencil from the state it is entered in, the number `s` of slots at the top of the operand stack
that are held in the registers `R0`, …, `R(s-1)`: which operands come from registers, how the survivors are renumbered,
where the results go (`emit_one_opcode`), and what the tables of variants say (`emit_jit_meta`).

* `n` is the number of cache registers, and `pw` the flavour that prices a `word` at two slots.
* The text of guards and body is the same in every stencil of an opcode, and so is that of the immediates: neither is
  here.
* Of a type without a storage class `opgen` makes no stencil: it stops.
-/

namespace Bbq.Opgen

/-! ## Widths -/

/-- `SClass`. -/
inductive SClass
  | i32 | i64 | f32 | f64 | v128 | ref | stk | addr | poly
  deriving DecidableEq, Repr

/-- `classify_final`. -/
def classifyFinal : ValueType → Option SClass
  | .i32 | .i8 | .u8 | .i16 | .u16 => some .i32
  | .i64 => some .i64
  | .f32 => some .f32
  | .f64 => some .f64
  | .v128 | .i8x16 | .i16x8 | .i32x4 | .i64x2 | .f32x4 | .f64x2 => some .v128
  | .ref | .funcRef | .externRef | .i31Ref => some .ref
  | .addr => some .addr
  | .word | .dword | .any => some .poly
  | _ => none

/-- `sclass_cacheable`. -/
def SClass.cacheable : SClass → Bool
  | .i32 | .i64 | .f32 | .f64 | .v128 => true
  | _ => false

/-- `sclass_width`. -/
def SClass.width (c : SClass) : Nat := if c = .v128 then 2 else 1

def ValueType.cacheable (t : ValueType) : Bool := (classifyFinal t).any SClass.cacheable

/-- `slot_width`. -/
def slotWidth (t : ValueType) : Nat := (classifyFinal t).elim 1 SClass.width

/-- `poly_slot`. -/
def polySlot (t : ValueType) : Bool := t == .word || t == .any

section

variable (pw : Bool)

/-- `swidth`. -/
def swidth (t : ValueType) : Nat := if pw && t == .word then 2 else slotWidth t

theorem slotWidth_pos (t : ValueType) : 0 < slotWidth t := by cases t <;> decide

theorem swidth_pos (t : ValueType) : 0 < swidth pw t := by
  unfold swidth
  split
  · exact Nat.two_pos
  · exact slotWidth_pos t

end

/-! ## Bodies that reach the stack -/

mutual

/-- Whether the expression calls the name: `expr_refs_name` looks at the names of calls when it is asked to. -/
def SemExpr.calls (name : String) : SemExpr → Bool
  | .binOp _ l r => l.calls name || r.calls name
  | .unary _ e | .cast _ e => e.calls name
  | .ternary c t e => c.calls name || t.calls name || e.calls name
  | .index b i => b.calls name || i.calls name
  | .call n args => n == name || SemExpr.anyCalls name args
  | .ident _ | .int _ | .float _ => false

def SemExpr.anyCalls (name : String) : List SemExpr → Bool
  | [] => false
  | e :: es => e.calls name || SemExpr.anyCalls name es

end

mutual

def SemStmt.calls (name : String) : SemStmt → Bool
  | .assign t v => t.calls name || v.calls name
  | .exprStmt e => e.calls name
  | .localDecl _ _ init =>
    match init with
    | some e => e.calls name
    | none => false
  | .if_ c t e => c.calls name || t.calls name || SemStmt.optCalls name e
  | .while_ c b => c.calls name || b.calls name
  | .for_ i c u b =>
    SemStmt.optCalls name i || (c.elim false fun e => e.calls name) || SemStmt.optCalls name u || b.calls name
  | .block ss => SemStmt.anyCalls name ss
  | .trap => false

def SemStmt.optCalls (name : String) : Option SemStmt → Bool
  | none => false
  | some s => s.calls name

def SemStmt.anyCalls (name : String) : List SemStmt → Bool
  | [] => false
  | s :: ss => s.calls name || SemStmt.anyCalls name ss

end

/-- An opcode with the flag `pops_first`: variadic operands are dropped before the body. -/
structure VmOpcode extends Opcode where
  popsFirst : Bool

/-- `op_refs_name`, by default without the names of calls. -/
def Opcode.refsName (op : Opcode) (name : String) (calls : Bool) : Bool :=
  op.semBody.any (fun s => s.refsName name || calls && s.calls name) ||
    op.errors.any fun e => e.condition.elim false fun c => c.refsName name || calls && c.calls name

/-- `stack_open`: the body reaches the operand stack itself. -/
def Opcode.stackOpen (op : Opcode) : Bool := op.refsName "push" true || op.refsName "pop" true || op.refsName "sp" false

/-- `op_has_pw_slot`. -/
def Opcode.hasPwSlot (op : Opcode) : Bool :=
  op.stackIn.any (fun si => si.ty == .word && si.count.isNone && si.atSrc.isNone) ||
    op.stackOut.any fun so => so.ty == .word && so.count.isNone

/-! ## States -/

section

variable (n : Nat) (pw : Bool) (op : Opcode)

/-- The operands from the top of the stack down, each with the slots above it. -/
def positions : (base : Nat) → List StackParam → List (StackParam × Nat)
  | _, [] => []
  | base, p :: ps => (p, base) :: positions (base + swidth pw p.ty) ps

/-- The operands in the order a stencil reads them. -/
def operands : List (StackParam × Nat) := positions pw 0 op.stackIn.reverse

/-- `operand_slot`: the first register of an operand that is cached whole. -/
def operandSlot (p : StackParam × Nat) (state : Nat) : Option Nat :=
  if p.2 + swidth pw p.1.ty ≤ state then some p.2 else none

def operandSlots : Nat := (op.stackIn.map fun si => swidth pw si.ty).sum

def resultSlots : Nat := (op.stackOut.map fun so => swidth pw so.ty).sum

/-- The cached slots that no operand takes. -/
def left (state : Nat) : Nat := state - operandSlots pw op

/-- `results_cached`. -/
def resultsCached (state : Nat) : Bool :=
  !op.stackOut.isEmpty && !op.stackOpen && decide (left pw op state + resultSlots pw op ≤ n) &&
    op.stackOut.all fun so => so.count.isNone && (so.ty.cacheable || polySlot so.ty)

/-- Whether a count of slots ends between two operands. -/
def boundary (state : Nat) : (base : Nat) → List StackParam → Bool
  | _, [] => false
  | base, p :: ps =>
    if base + swidth pw p.ty ≥ state then base + swidth pw p.ty == state
    else boundary state (base + swidth pw p.ty) ps

/-- What `emits_variant` asks of an operand. -/
def mayRide (p : StackParam × Nat) (state : Nat) : Bool :=
  (operandSlot pw p state).isNone || p.1.count.isNone && (p.1.ty == .addr || p.1.ty == .word || p.1.ty.cacheable)

/-- `emits_variant`. -/
def emitsVariant (state : Nat) : Bool :=
  (state == 0 || !op.stackOpen) &&
    (decide (operandSlots pw op ≤ state) || state == 0 || boundary pw state 0 op.stackIn.reverse) &&
    decide (left pw op state + resultSlots pw op ≤ n) &&
    (op.stackOut.isEmpty || resultsCached n pw op state || left pw op state == 0) &&
    (operands pw op).all fun p => mayRide pw p state

/-- Whether the emission gives the state a stencil. -/
def hasVariant (state : Nat) : Bool := state == 0 || emitsVariant n pw op state

/-- What the text of a stencil takes from the state. -/
def sameBody (prev state : Nat) : Bool :=
  resultsCached n pw op prev == resultsCached n pw op state &&
    ((operands pw op).all fun p => operandSlot pw p prev == operandSlot pw p state) &&
    left pw op prev == left pw op state

/-- `same_state_as`. -/
def sameStateAs (state : Nat) : Option Nat :=
  (List.range state).find? fun prev => hasVariant n pw op prev && sameBody n pw op prev state

/-- `variant_fs`. -/
def variantFs (state : Nat) : Option Nat :=
  if hasVariant n pw op state then
    some (left pw op state + if resultsCached n pw op state then resultSlots pw op else 0)
  else none

/-- `has_mem_form`. -/
def hasMemForm (state : Nat) : Bool :=
  decide (0 < state) && !op.stackOut.isEmpty && emitsVariant n pw op state && resultsCached n pw op state &&
    left pw op state == 0

end

/-! ## Stencils -/

/-- Where a variable gets its operand from. -/
inductive Read
  /-- A count, and the operands in place. -/
  | variadic (p : StackParam)
  /-- `CACHE_GET_ADDR`. -/
  | getAddr (p : StackParam) (slot : Nat)
  /-- `CACHE_GET_V128` of a pair. -/
  | getWide (p : StackParam) (slot : Nat)
  /-- `CACHE_GET_WORD`. -/
  | getWord (p : StackParam) (slot : Nat)
  | get (p : StackParam) (slot : Nat)
  | popAddr (p : StackParam)
  | pop (p : StackParam)
  /-- `JV_SP -= …`, of an operand that nothing mentions. -/
  | drop (p : StackParam)

/-- Where a result goes. -/
inductive Write
  /-- `JV_SP += …` -/
  | expose (p : StackParam)
  /-- To `R0` and `R1`. -/
  | putWide (p : StackParam)
  /-- To `R0`. -/
  | put (p : StackParam)
  | push (p : StackParam)

structure Stencil where
  reads : List Read
  /-- `CACHE_R(fst) = CACHE_R(snd);`, in this order. -/
  moves : List (Nat × Nat)
  writes : List Write

section

variable (n : Nat) (pw : Bool) (op : Opcode)

/-- The read of an operand. `state` is `none` in the plain stencil. -/
def readOf (state : Option Nat) (p : StackParam × Nat) : Read :=
  if p.1.count.isSome then .variadic p.1
  else
    match state.bind (operandSlot pw p) with
    | some slot =>
      if p.1.ty == .addr then .getAddr p.1 slot
      else if swidth pw p.1.ty = 2 then .getWide p.1 slot
      else if p.1.ty == .word then .getWord p.1 slot
      else .get p.1 slot
    | none => if !op.stackInLive p.1 then .drop p.1 else if p.1.ty == .addr then .popAddr p.1 else .pop p.1

/-- The moves of `left` survivors from above `a` slots to above `nout`: walking down when they move up. -/
def survivorMoves (a nout left : Nat) : List (Nat × Nat) :=
  let move := fun j => (nout + j, a + j)
  if nout > a then ((List.range left).reverse).map move
  else if nout < a then (List.range left).map move
  else []

def writeOf (cacheRes : Bool) (so : StackParam) : Write :=
  if so.count.isSome then .expose so
  else if !cacheRes then .push so
  else if swidth pw so.ty = 2 then .putWide so
  else .put so

/-- `cache_res`. -/
def cacheRes (state : Option Nat) (memResult : Bool) : Bool := !memResult && state.any (resultsCached n pw op)

/-- `emit_one_opcode`. -/
def stencil (state : Option Nat) (memResult : Bool) : Stencil where
  reads := (operands pw op).map (readOf pw op state)
  moves :=
    match state with
    | none => []
    | some state =>
      survivorMoves (operandSlots pw op) (if cacheRes n pw op (some state) memResult then resultSlots pw op else 0)
        (left pw op state)
  writes := op.stackOut.map (writeOf pw (cacheRes n pw op state memResult))

/-- The plain stencil, which uses no register. -/
def plain : Stencil := stencil 0 false op none false

/-- The stencils of a flavour, each with its state and whether it pushes its results (`emit_stencil_c`). -/
def emitted : List (Nat × Bool) :=
  ((List.range (n + 1)).filter fun st => hasVariant n pw op st && (sameStateAs n pw op st).isNone).map (·, false) ++
    ((List.range (n + 1)).filter (hasMemForm n pw op)).map (·, true)

/-- Whether the tables of the flavour have a row for the opcode. -/
def flavoured : Bool := !pw || op.hasPwSlot

/-- `variant` and `variant_pw`: the state whose stencil is stamped in a state. -/
def variantState (state : Nat) : Option Nat :=
  if flavoured pw op && hasVariant n pw op state then some ((sameStateAs n pw op state).getD state) else none

/-- What the tables of variants (without `memResult`) and of memory placements name for a state. Without a cache it is
the plain stencil. -/
def variant (memResult : Bool) (state : Nat) : Option Stencil :=
  if state > n then none
  else if memResult then
    if flavoured pw op && hasMemForm n pw op state then some (stencil n pw op (some state) true) else none
  else if n = 0 then if flavoured pw op then some (plain op) else none
  else (variantState n pw op state).map fun st => stencil n pw op (some st) false

/-- The slots cached after a stencil of the tables: `variant_fs`, and none after a memory placement. -/
def exitState (memResult : Bool) (state : Nat) : Nat :=
  if memResult then 0 else (variantFs n pw op state).getD 0

end

/-! ## Shared bodies -/

section

variable {n : Nat} {pw : Bool} {op : Opcode} {prev state : Nat}

theorem sameBody_iff :
    sameBody n pw op prev state = true ↔ resultsCached n pw op prev = resultsCached n pw op state ∧
      (∀ p ∈ operands pw op, operandSlot pw p prev = operandSlot pw p state) ∧ left pw op prev = left pw op state := by
  simp [sameBody, and_assoc]

/-- **A shared body is the body of both states.** -/
theorem stencil_shared (h : sameBody n pw op prev state = true) :
    stencil n pw op (some prev) false = stencil n pw op (some state) false := by
  obtain ⟨hres, hslots, hleft⟩ := sameBody_iff.1 h
  have hcache : cacheRes n pw op (some prev) false = cacheRes n pw op (some state) false := hres
  unfold stencil
  simp only [hcache, hleft, Stencil.mk.injEq, and_true, List.map_inj_left]
  intro p hp
  unfold readOf
  rw [Option.bind_some, Option.bind_some, hslots p hp]

theorem sameStateAs_eq_some {share : Nat} :
    sameStateAs n pw op state = some share ↔ (hasVariant n pw op share = true ∧ sameBody n pw op share state = true) ∧
      share < state ∧ ∀ first < share, (hasVariant n pw op first && sameBody n pw op first state) = false := by
  unfold sameStateAs
  rw [List.find?_range_eq_some]
  simp only [Bool.and_eq_true, List.mem_range, Bool.not_eq_true']

/-- The state that is shared is the first with the body, which shares no other. -/
theorem sameStateAs_share {share : Nat} (h : sameStateAs n pw op state = some share) :
    sameStateAs n pw op share = none := by
  obtain ⟨⟨-, hbody⟩, -, hfirst⟩ := sameStateAs_eq_some.1 h
  rcases hagain : sameStateAs n pw op share with _ | first
  · rfl
  · obtain ⟨⟨hvariant, hsame⟩, hlt, -⟩ := sameStateAs_eq_some.1 hagain
    obtain ⟨hr, hs, hl⟩ := sameBody_iff.1 hsame
    obtain ⟨hr', hs', hl'⟩ := sameBody_iff.1 hbody
    have hbefore : sameBody n pw op first state = true :=
      sameBody_iff.2 ⟨hr.trans hr', fun p hp => (hs p hp).trans (hs' p hp), hl.trans hl'⟩
    have hnot := hfirst first hlt
    rw [hvariant, hbefore] at hnot
    cases hnot

/-- **The tables name stencils that are emitted.** -/
theorem variantState_emitted {st : Nat} (hst : state ≤ n) (h : variantState n pw op state = some st) :
    (st, false) ∈ emitted n pw op := by
  unfold variantState at h
  split at h
  case isFalse => cases h
  case isTrue hrow =>
    rw [Bool.and_eq_true] at hrow
    refine List.mem_append_left _ (List.mem_map.2 ⟨st, List.mem_filter.2 ?_, rfl⟩)
    rcases hshare : sameStateAs n pw op state with _ | share
    · rw [hshare] at h
      obtain rfl := Option.some_inj.1 h
      exact ⟨List.mem_range.2 (by simpa using Nat.lt_succ_of_le hst), by simp [hrow.2, hshare]⟩
    · rw [hshare] at h
      obtain rfl := Option.some_inj.1 h
      obtain ⟨⟨hvariant, -⟩, hlt, -⟩ := sameStateAs_eq_some.1 hshare
      rw [Option.getD_some, List.mem_range, hvariant, sameStateAs_share hshare]
      exact ⟨by omega, rfl⟩

end

end Bbq.Opgen
