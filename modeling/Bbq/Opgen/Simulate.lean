import Bbq.Opgen.Reads

/-!
# Cached stencils simulate the plain stencil

* `survivorMoves_spec`: the survivors are renumbered, each read before it is overwritten.
* `finish_sim`: the results go on top of them.

Of several cached results only the last stays: each is written to `R0`.
-/

namespace Bbq.Opgen

/-! ## Survivors -/

section

variable {regs : Nat → BitVec 64} {a nout left : Nat}

theorem runMoves_append (ms ms' : List (Nat × Nat)) (regs : Nat → BitVec 64) :
    runMoves (ms ++ ms') regs = runMoves ms' (runMoves ms regs) := by
  induction ms generalizing regs with
  | nil => rfl
  | cons mv ms ih => exact ih _

theorem runMoves_of_not_mem {ms : List (Nat × Nat)} {r : Nat} (h : ∀ mv ∈ ms, mv.1 ≠ r) (regs : Nat → BitVec 64) :
    runMoves ms regs r = regs r := by
  induction ms generalizing regs with
  | nil => rfl
  | cons mv ms ih =>
    rw [runMoves, ih fun mv' h' => h mv' (List.mem_cons_of_mem _ h')]
    exact Function.update_of_ne (h mv List.mem_cons_self).symm _ _

/-- Walking down, when the survivors move up. -/
theorem runMoves_up (hup : a < nout) : ∀ (left : Nat) (regs : Nat → BitVec 64), ∀ j < left,
    runMoves (((List.range left).reverse).map fun j => (nout + j, a + j)) regs (nout + j) = regs (a + j)
  | left + 1, regs, j, hj => by
    rw [List.range_succ, List.reverse_append, List.reverse_singleton, List.singleton_append, List.map_cons, runMoves]
    by_cases hlast : j = left
    · rw [hlast, runMoves_of_not_mem, Function.update_self]
      intro mv hmv
      obtain ⟨i, hi, rfl⟩ := List.mem_map.1 hmv
      have := List.mem_range.1 (List.mem_reverse.1 hi)
      dsimp only
      omega
    · rw [runMoves_up hup left _ j (by omega)]
      exact Function.update_of_ne (by omega) _ _

/-- Walking up, when they move down. -/
theorem runMoves_down (hdown : nout < a) : ∀ (left : Nat) (regs : Nat → BitVec 64), ∀ j < left,
    runMoves ((List.range left).map fun j => (nout + j, a + j)) regs (nout + j) = regs (a + j)
  | left + 1, regs, j, hj => by
    rw [List.range_succ, List.map_append, runMoves_append]
    by_cases hlast : j = left
    · rw [hlast, List.map_singleton, runMoves, runMoves, Function.update_self, runMoves_of_not_mem]
      intro mv hmv
      obtain ⟨i, hi, rfl⟩ := List.mem_map.1 hmv
      have := List.mem_range.1 hi
      dsimp only
      omega
    · rw [List.map_singleton, runMoves, runMoves, Function.update_of_ne (by omega),
        runMoves_down hdown left regs j (by omega)]

/-- **The survivors keep their order**, from above `a` slots to above `nout`. -/
theorem survivorMoves_spec {j : Nat} (hj : j < left) :
    runMoves (survivorMoves a nout left) regs (nout + j) = regs (a + j) := by
  unfold survivorMoves
  split
  · next hup => exact runMoves_up hup left regs j hj
  · split
    · next hdown => exact runMoves_down hdown left regs j hj
    · rw [show nout = a by omega]
      rfl

theorem survivors_kept :
    (List.range' nout left).map (runMoves (survivorMoves a nout left) regs) = (List.range' a left).map regs := by
  refine List.ext_getElem (by simp) fun j hj hj' => ?_
  rw [List.length_map, List.length_range'] at hj
  rw [List.getElem_map, List.getElem_map, List.getElem_range', List.getElem_range', Nat.one_mul]
  exact survivorMoves_spec hj

end

/-! ## Variants -/

section

variable {n : Nat} {pw : Bool} {op : Opcode} {st : Nat}

theorem sum_widths : (op.stackIn.reverse.map fun p => swidth pw p.ty).sum = operandSlots pw op := by
  unfold operandSlots
  rw [List.map_reverse, List.sum_reverse]

theorem mem_positions_le {ps : List StackParam} {base : Nat} {p : StackParam × Nat} (hp : p ∈ positions pw base ps) :
    p.2 + swidth pw p.1.ty ≤ base + (ps.map fun p => swidth pw p.ty).sum := by
  induction ps generalizing base with
  | nil => cases hp
  | cons si ps ih =>
    rw [List.map_cons, List.sum_cons]
    rcases List.mem_cons.mp hp with rfl | hp
    · dsimp only
      omega
    · have := ih hp
      omega

theorem exists_position {ps : List StackParam} {base : Nat} {si : StackParam} (hsi : si ∈ ps) :
    ∃ p ∈ positions pw base ps, p.1 = si := by
  induction ps generalizing base with
  | nil => cases hsi
  | cons first ps ih =>
    rcases List.mem_cons.mp hsi with rfl | hsi
    · exact ⟨_, List.mem_cons_self, rfl⟩
    · obtain ⟨p, hp, heq⟩ := ih hsi
      exact ⟨p, List.mem_cons_of_mem _ hp, heq⟩

/-- What a variant may rely on. -/
structure Variant (n : Nat) (pw : Bool) (op : Opcode) (st : Nat) : Prop where
  ends : Ends pw st 0 op.stackIn.reverse
  rides : ∀ p ∈ operands pw op, (operandSlot pw p st).isSome →
    p.1.count = none ∧ (p.1.ty = .addr ∨ p.1.ty = .word ∨ p.1.ty.cacheable = true)
  survivors : left pw op st ≠ 0 → op.stackOpen = false ∧ (op.stackOut = [] ∨ resultsCached n pw op st = true)

theorem hasVariant_spec (h : hasVariant n pw op st = true) : Variant n pw op st := by
  unfold hasVariant at h
  rw [Bool.or_eq_true, beq_iff_eq] at h
  rcases h with rfl | h
  · refine ⟨.inl (Nat.le_refl 0), fun p _ hsome => ?_, fun hleft => absurd (Nat.zero_sub _) hleft⟩
    have := swidth_pos pw p.1.ty
    rw [operandSlot, if_neg (by omega)] at hsome
    cases hsome
  · simp only [emitsVariant, Bool.and_eq_true, Bool.or_eq_true, beq_iff_eq, Bool.not_eq_true', decide_eq_true_eq,
      List.isEmpty_iff] at h
    obtain ⟨⟨⟨⟨hopen, hends⟩, -⟩, hout⟩, hall⟩ := h
    refine ⟨?_, fun p hp hsome => ?_, fun hleft => ⟨?_, ?_⟩⟩
    · rcases hends with (hall | hzero) | hb
      · exact .inr (.inl (by rw [Nat.zero_add, sum_widths]; exact hall))
      · exact .inl (Nat.le_of_eq hzero)
      · exact .inr (.inr hb)
    · have hp' := List.all_eq_true.1 hall p hp
      unfold mayRide at hp'
      rw [Option.isNone_eq_false_iff.2 hsome] at hp'
      simpa [or_assoc] using hp'
    · refine hopen.resolve_left fun hzero => hleft ?_
      rw [hzero]
      exact Nat.zero_sub _
    · rcases hout with (hnil | hcached) | hzero
      · exact .inl hnil
      · exact .inr hcached
      · exact absurd hzero hleft

/-- Survivors lie beneath operands that are all cached. -/
theorem covered_of_left (hleft : left pw op st ≠ 0) {p : StackParam × Nat} (hp : p ∈ operands pw op) :
    (operandSlot pw p st).isSome := by
  have hle := mem_positions_le hp
  rw [sum_widths] at hle
  unfold left at hleft
  rw [operandSlot, if_pos (by omega)]
  rfl

theorem Variant.fixed (h : Variant n pw op st) (hleft : left pw op st ≠ 0) : ∀ si ∈ op.stackIn, si.count = none := by
  intro si hsi
  obtain ⟨p, hp, rfl⟩ := exists_position (List.mem_reverse.2 hsi)
  exact (h.rides p hp (covered_of_left hleft hp)).1

theorem resultsCached_spec (h : resultsCached n pw op st = true) :
    ∀ so ∈ op.stackOut, so.count = none ∧ (so.ty.cacheable = true ∨ polySlot so.ty = true) := by
  intro so hso
  simp only [resultsCached, Bool.and_eq_true, List.all_eq_true, Bool.or_eq_true, Option.isNone_iff_eq_none] at h
  exact h.2 so hso

end

/-! ## Simulation -/

section

variable (m : Spec) (n : Nat) (pw : Bool) (op : VmOpcode) {W : Type} (B : Body W) (st : Nat) (memResult : Bool)

/-- `p` is how the plain stencil ends and `v` how a variant does: with a trap of both, or at the same continuation with
the same world (the locals in it), and `fs` slots of the same operand stack cached. -/
def Simulated (fs : Nat) (p v : Option (Outcome W)) : Prop :=
  match p, v with
  | none, none => True
  | some (.trap w), some (.trap w') => w = w'
  | some (.cont k M), some (.cont k' M') => k = k' ∧ M.world = M'.world ∧ Represents M'.regs fs M'.mem M.mem
  | _, _ => False

/-- A body that neither mentions `push`, `pop` or `sp` nor has variadic operands does not touch the operand stack. -/
def Steady : Prop :=
  op.stackOpen = false → (∀ si ∈ op.stackIn, si.count = none) →
    ∀ env mem mem' w, B.run env [] mem' w = (B.run env [] mem w).mapMem fun _ => mem'

/-- The slots of an instance have the widths of its flavour: a `word` in registers is a `v128` in the wide flavour, and
in the other it is none. -/
structure Instance (stack : List Entry) (w : W) : Prop where
  operands : ∀ pe ∈ (operands pw op.toOpcode).zip stack, (operandSlot pw pe.1 st).isSome → pe.2.slots = swidth pw pe.1.1.ty
  results : cacheRes n pw op.toOpcode (some st) memResult = true →
    ∀ regs o, runReads m op B regs w (plain op.toOpcode).reads ⟨B.imm, stack, []⟩ = some o →
      ∀ vals mem w', B.run (o.env.live op.toOpcode) o.variadic o.mem w = .done vals mem w' →
        ∀ so ∈ op.stackOut, polySlot so.ty = true → (vals so.pushedName).slots = swidth pw so.ty

/-- Whether the variable of a result may be a float. -/
def FloatName (x : String) : Prop :=
  (∃ si ∈ op.stackIn, si.name = x ∧ (m.popScalar si.ty).isFloat = true) ∨
    (∃ v, B.imm x = some v ∧ v.ty.isFloat = true) ∨ (m.cScalar (op.typeOfName x)).isFloat = true

/-- What the variant of a state asks of the opcode: one result at most is cached, a slot class that is cached has one C
type, no float is forwarded as an integer, and a body that leaves early leaves nothing to renumber or to place. -/
structure CacheSafe : Prop where
  single : cacheRes n pw op.toOpcode (some st) memResult = true → op.stackOut.length ≤ 1
  operands : ∀ p ∈ operands pw op.toOpcode, (operandSlot pw p st).isSome → p.1.ty.cacheable = true → OneType m p.1.ty
  results : cacheRes n pw op.toOpcode (some st) memResult = true →
    ∀ so ∈ op.stackOut, so.ty.cacheable = true → OneType m so.ty ∧
      (FloatName m op B so.pushedName → (m.cScalar so.ty).isFloat = true)
  stays : (∀ env variadic mem w mem' w', B.run env variadic mem w ≠ .resync mem' w') ∨
    exitState n pw op.toOpcode memResult st = 0 ∨ operandSlots pw op.toOpcode = 0 ∧ op.stackOut = []

variable {m n pw op B st memResult} {regs junk : Nat → BitVec 64} {w : W} {o v : Operands} {cached : List Entry}

theorem Exit.mapMem_nil (x : Exit W) : x.mapMem (fun mem => [] ++ mem) = x := by cases x <;> rfl

theorem Exit.mapMem_mapMem (f g : List Entry → List Entry) (x : Exit W) : (x.mapMem f).mapMem g = x.mapMem (g ∘ f) := by
  cases x <;> rfl

/-- What lies beneath the operands stays there. -/
theorem body_sim (hsteady : Steady op B) (henv : o.env.live op.toOpcode = v.env.live op.toOpcode)
    (hvariadic : o.variadic = v.variadic) (hmem : o.mem = cached ++ v.mem)
    (hdeep : cached ≠ [] → op.stackOpen = false ∧ (∀ si ∈ op.stackIn, si.count = none) ∧ v.variadic = []) :
    B.run (o.env.live op.toOpcode) o.variadic o.mem w =
      (B.run (v.env.live op.toOpcode) v.variadic v.mem w).mapMem (cached ++ ·) := by
  rw [henv, hvariadic, hmem]
  by_cases hnil : cached = []
  · rw [hnil, Exit.mapMem_nil]
    rfl
  · obtain ⟨hopen, hfixed, hnone⟩ := hdeep hnil
    have hkeep := hsteady hopen hfixed (v.env.live op.toOpcode) v.mem
    rw [hnone, hkeep (cached ++ v.mem) w]
    conv_rhs => rw [hkeep v.mem w, Exit.mapMem_mapMem]
    rfl

theorem dropVariadic_append {variadic : List (List Entry)} (h : cached = [] ∨ variadic = []) (mem : List Entry) :
    dropVariadic op variadic (cached ++ mem) = cached ++ dropVariadic op variadic mem := by
  rcases h with rfl | rfl
  · rfl
  · unfold dropVariadic
    split <;> rfl

/-- Without cached results, a stencil writes to memory alone. -/
theorem runWrites_push {pw' : Bool} (env : Env) (vals : String → Entry) : ∀ (outs : List StackParam) (M M' : Machine W),
    M.mem = M'.mem → M.world = M'.world →
    (runWrites m op B env vals (outs.map (writeOf pw false)) M).mem =
        (runWrites m op B env vals (outs.map (writeOf pw' false)) M').mem ∧
      (runWrites m op B env vals (outs.map (writeOf pw false)) M).world =
        (runWrites m op B env vals (outs.map (writeOf pw' false)) M').world
  | [], M, M', hmem, hworld => ⟨hmem, hworld⟩
  | so :: outs, M, M', hmem, hworld => by
    rw [List.map_cons, List.map_cons, runWrites, runWrites]
    refine runWrites_push env vals outs _ _ ?_ ?_
    · unfold writeOf
      cases so.count <;> simp [Write.run, hmem, hworld]
    · unfold writeOf
      cases so.count <;> simpa [Write.run] using hworld

/-! ### Results -/

/-- Variables that are floats are named so. -/
def FloatsNamed (m : Spec) (op : VmOpcode) (B : Body W) (env : Env) : Prop :=
  ∀ x val, env x = some val → val.ty.isFloat = true → FloatName m op B x

theorem FloatsNamed.set {env : Env} (h : FloatsNamed m op B env) {si : StackParam} (hsi : si ∈ op.stackIn) {x : Var}
    (hx : x.ty.isFloat = true → (m.popScalar si.ty).isFloat = true) : FloatsNamed m op B (env.set si.name x) := by
  intro y val hval hfloat
  unfold Env.set at hval
  split at hval
  · next hy =>
    obtain rfl := Option.some_inj.1 hval
    exact .inl ⟨si, hsi, hy.symm, hx hfloat⟩
  · exact h y val hval hfloat

theorem popped_isFloat {t : ValueType} {e : Entry} (h : (m.popped t e).ty.isFloat = true) :
    (m.popScalar t).isFloat = true := by
  unfold Spec.popped at h
  split at h
  · cases h
  · cases h
  · exact h

theorem memVar_isFloat {si : StackParam} {e : Entry} (h : (memVar m op B w o si e).ty.isFloat = true) :
    (m.popScalar si.ty).isFloat = true := by
  unfold memVar at h
  split at h
  · cases h
  · exact popped_isFloat h

theorem plain_read_floats {si : StackParam} {base : Nat} {o' : Operands} (h : FloatsNamed m op B o.env)
    (hsi : si ∈ op.stackIn) (hrun : (readOf pw op.toOpcode none (si, base)).run m op B regs w o = some o') :
    FloatsNamed m op B o'.env := by
  cases hcount : si.count with
  | some c =>
    unfold readOf at hrun
    simp only [hcount, Option.isSome_some, if_true, Read.run, Option.some_inj] at hrun
    rw [← hrun]
    exact h
  | none =>
    cases hmem : o.mem with
    | nil =>
      unfold readOf at hrun
      simp only [hcount, Option.isSome_none, Bool.false_eq_true, if_false, Option.bind_none] at hrun
      split at hrun
      · simp [Read.run, hmem, popEntry] at hrun
      · split at hrun <;> simp [Read.run, hmem, popEntry] at hrun
    | cons e mem =>
      rw [plain_read hcount hmem, Option.some_inj] at hrun
      rw [← hrun]
      split
      · exact h.set hsi memVar_isFloat
      · exact h

theorem plain_reads_floats : ∀ {ps : List StackParam} {base : Nat} {o o' : Operands}, (∀ si ∈ ps, si ∈ op.stackIn) →
    FloatsNamed m op B o.env →
    runReads m op B regs w ((positions pw base ps).map (readOf pw op.toOpcode none)) o = some o' → FloatsNamed m op B o'.env
  | [], _, _, _, _, h, hrun => by
    obtain rfl := Option.some_inj.1 hrun
    exact h
  | si :: ps, base, o, o', hps, h, hrun => by
    rw [positions, List.map_cons, runReads, Option.bind_eq_some_iff] at hrun
    obtain ⟨o1, hrun1, hrest⟩ := hrun
    exact plain_reads_floats (fun x hx => hps x (List.mem_cons_of_mem _ hx))
      (plain_read_floats h (hps si List.mem_cons_self) hrun1) hrest

/-- A variable that may be a float by its type may be one by its name. -/
theorem typeOfVar_isFloat {env : Env} (h : FloatsNamed m op B env) {x : String}
    (hx : (typeOfVar m op (env.live op.toOpcode) x).isFloat = true) : FloatName m op B x := by
  unfold typeOfVar at hx
  split at hx
  · next val hval =>
    unfold Env.live at hval
    split at hval
    · exact h x val hval hx
    · cases hval
  · split at hx
    · cases hx
    · exact .inr (.inr hx)

theorem convert_v128 {floats : Scalar → Scalar → BitVec 64 → BitVec 64} {src : CType} (h : src.isFloat = false)
    (e : Entry) : convert floats src .v128T e = .wide e.lo e.hi := by
  unfold convert
  cases src with
  | slot => rfl
  | scalar t =>
    cases t <;> first | rfl | cases h

/-- What the one cached result asks for. -/
structure ResultSafe (m : Spec) (pw : Bool) (op : VmOpcode) (B : Body W) (env : Env) (vals : String → Entry)
    (so : StackParam) : Prop where
  fixed : so.count = none
  kind : so.ty.cacheable = true ∨ polySlot so.ty = true
  poly : polySlot so.ty = true → (vals so.pushedName).slots = swidth pw so.ty
  macros : so.ty.cacheable = true → OneType m so.ty
  floats : so.ty.cacheable = true → (typeOfVar m op env so.pushedName).isFloat = true → (m.cScalar so.ty).isFloat = true

theorem slots_one {e : Entry} (h : e.slots = 1) : e = .one e.lo := by
  cases e with
  | one => rfl
  | wide => cases h

theorem slots_two {e : Entry} (h : e.slots = 2) : e = .wide e.lo e.hi := by
  cases e with
  | one => cases h
  | wide => rfl

theorem resultEntry_poly {env : Env} {vals : String → Entry} {so : StackParam} (h : polySlot so.ty = true) (dst : Scalar) :
    resultEntry m op B env vals so dst = vals so.pushedName := by
  unfold resultEntry
  simp only [polySlot, Bool.or_eq_true, beq_iff_eq] at h
  rcases h with h | h
  · rw [h]
    rfl
  · rw [h]
    rfl

theorem resultEntry_typed {env : Env} {vals : String → Entry} {so : StackParam} (h : so.ty.typed) (dst : Scalar) :
    resultEntry m op B env vals so dst = convert B.floats (typeOfVar m op env so.pushedName) dst (vals so.pushedName) := by
  unfold resultEntry
  split
  case h_1 hw => exact absurd hw h.1
  case h_2 ha => exact absurd ha h.2
  case h_3 => rfl

/-- **A cached result** is in the registers what the plain stencil pushes. -/
theorem put_result {env : Env} {vals : String → Entry} {so : StackParam} (h : ResultSafe m pw op B env vals so)
    (M : Machine W) :
    ∃ R, (writeOf pw true so).run m op B env vals M = { M with regs := R } ∧
      (resultEntry m op B env vals so (m.popScalar so.ty)).words = (List.range (swidth pw so.ty)).map R ∧
      ∀ r, swidth pw so.ty ≤ r → R r = M.regs r := by
  unfold writeOf
  simp only [h.fixed, Option.isSome_none, Bool.false_eq_true, if_false, Bool.not_true]
  have hsingle : ∀ b, ∀ r, 1 ≤ r → Function.update M.regs 0 b r = M.regs r :=
    fun b r hr => Function.update_of_ne (by omega) _ _
  rcases (swidth_cases so.ty : swidth pw so.ty = 1 ∨ swidth pw so.ty = 2) with h1 | h2
  · rw [h1, if_neg (by decide)]
    refine ⟨_, rfl, ?_, hsingle _⟩
    by_cases hpoly : polySlot so.ty = true
    · rw [resultEntry_poly hpoly, resultEntry_poly hpoly, slots_one ((h.poly hpoly).trans h1)]
      rfl
    · have hc := h.kind.resolve_right hpoly
      have hword : so.ty ≠ .word := by
        intro hw
        rw [hw] at hc
        cases hc
      have hne : slotWidth so.ty ≠ 2 := by rw [← swidth_of_ne_word hword, h1]; decide
      rw [resultEntry_typed (cacheable_typed hc), resultEntry_typed (cacheable_typed hc),
        ← put_eq_push (h.macros hc) hne (h.floats hc)]
      rfl
  · rw [h2, if_pos rfl]
    refine ⟨_, rfl, ?_, fun r hr => ?_⟩
    · have hwide : resultEntry m op B env vals so (m.popScalar so.ty) =
          .wide (vals so.pushedName).lo (vals so.pushedName).hi := by
        by_cases hpoly : polySlot so.ty = true
        · rw [resultEntry_poly hpoly]
          exact slots_two ((h.poly hpoly).trans h2)
        · have hc := h.kind.resolve_right hpoly
          have hword : so.ty ≠ .word := by
            intro hw
            rw [hw] at hc
            cases hc
          have hv := (h.macros hc).wide ((swidth_of_ne_word hword).symm.trans h2)
          rw [resultEntry_typed (cacheable_typed hc), (h.macros hc).popped, hv, convert_v128]
          have hnot := h.floats hc
          rw [hv] at hnot
          cases hf : (typeOfVar m op env so.pushedName).isFloat with
          | false => rfl
          | true => exact absurd (hnot hf) (by decide)
      rw [hwide]
      rfl
    · rw [Function.update_of_ne (by omega), Function.update_of_ne (by omega)]

/-! ### Whole stencils -/

theorem cacheRes_some : cacheRes n pw op.toOpcode (some st) memResult = (!memResult && resultsCached n pw op.toOpcode st) := rfl

/-- The registers that results are cached in. -/
def cachedSlots (n : Nat) (pw : Bool) (op : VmOpcode) (st : Nat) (memResult : Bool) : Nat :=
  if cacheRes n pw op.toOpcode (some st) memResult then resultSlots pw op.toOpcode else 0

theorem hasMemForm_spec (h : hasMemForm n pw op.toOpcode st = true) :
    hasVariant n pw op.toOpcode st = true ∧ left pw op.toOpcode st = 0 ∧ op.stackOut ≠ [] := by
  simp only [hasMemForm, Bool.and_eq_true, beq_iff_eq, Bool.not_eq_true'] at h
  exact ⟨by simp [hasVariant, h.1.1.2], h.2, fun hnil => by simp [hnil] at h⟩

/-- What is cached afterwards: the results that are, and the survivors. -/
theorem exitState_eq (hvariant : hasVariant n pw op.toOpcode st = true)
    (hform : memResult = true → hasMemForm n pw op.toOpcode st = true) :
    exitState n pw op.toOpcode memResult st = cachedSlots n pw op st memResult + left pw op.toOpcode st := by
  unfold exitState cachedSlots
  rw [cacheRes_some]
  cases memResult with
  | true =>
    rw [(hasMemForm_spec (hform rfl)).2.1]
    rfl
  | false =>
    unfold variantFs
    rw [if_pos hvariant]
    simp only [Bool.false_eq_true, if_false, Option.getD_some, Bool.not_false, Bool.true_and]
    exact Nat.add_comm _ _

theorem Represents.of_words {stack mem : List Entry} {fs : Nat} (hstack : stack = cached ++ mem)
    (hwords : cached.flatMap Entry.words = (List.range' 0 fs).map regs) : Represents regs fs mem stack :=
  ⟨cached, hstack, by rw [hwords, List.range_eq_range']⟩

variable (hvar : Variant n pw op.toOpcode st) (hvariant : hasVariant n pw op.toOpcode st = true)
  (hform : memResult = true → hasMemForm n pw op.toOpcode st = true) (hsafe : CacheSafe m n pw op B st memResult)

include hform hvariant hsafe in
/-- A body that leaves early leaves the cached slots that are reported. -/
theorem resync_sim (hwords : cached.flatMap Entry.words =
      (List.range' (operandSlots pw op.toOpcode) (left pw op.toOpcode st)).map regs)
    (hleave : ∃ env variadic mem w mem' w', B.run env variadic mem w = .resync mem' w') (mem : List Entry) :
    Represents regs (exitState n pw op.toOpcode memResult st) mem (cached ++ mem) := by
  have hexit := exitState_eq hvariant hform
  refine .of_words rfl (hwords.trans ?_)
  rcases hsafe.stays with hnever | hzero | ⟨ha, hout⟩
  · obtain ⟨env, variadic, mem, w, mem', w', hrun⟩ := hleave
    exact absurd hrun (hnever env variadic mem w mem' w')
  · rw [hexit] at hzero
    rw [hexit, hzero, Nat.eq_zero_of_add_eq_zero_left hzero]
    rfl
  · have hnone : cachedSlots n pw op st memResult = 0 := by
      unfold cachedSlots resultSlots
      rw [hout]
      exact ite_self 0
    rw [hexit, hnone, ha, Nat.zero_add]

include hvar hform in
/-- **Results in memory.** -/
theorem push_sim (hnot : cacheRes n pw op.toOpcode (some st) memResult = false) {R : Nat → BitVec 64} {env : Env}
    {vals : String → Entry} {mem : List Entry}
    (hwords : cached.flatMap Entry.words = (List.range' 0 (left pw op.toOpcode st)).map R) :
    let P := runWrites m op B env vals (op.stackOut.map (writeOf pw false)) ⟨junk, cached ++ mem, w⟩
    let V := runWrites m op B env vals (op.stackOut.map (writeOf pw false)) ⟨R, mem, w⟩
    P.world = V.world ∧ Represents V.regs (left pw op.toOpcode st) V.mem P.mem := by
  intro P V
  by_cases hleft : left pw op.toOpcode st = 0
  · rw [hleft] at hwords ⊢
    obtain rfl := flatMap_words_eq_nil hwords
    obtain ⟨hmem, hworld⟩ : P.mem = V.mem ∧ P.world = V.world := runWrites_push env vals op.stackOut _ _ rfl rfl
    exact ⟨hworld, [], hmem, rfl⟩
  · have hout : op.stackOut = [] := by
      refine ((hvar.survivors hleft).2).resolve_right fun hcached => ?_
      cases memResult with
      | true => exact hleft (hasMemForm_spec (hform rfl)).2.1
      | false =>
        rw [cacheRes_some, hcached] at hnot
        cases hnot
    have hP : P = ⟨junk, cached ++ mem, w⟩ := by simp only [P, hout, List.map_nil, runWrites]
    have hV : V = ⟨R, mem, w⟩ := by simp only [V, hout, List.map_nil, runWrites]
    rw [hP, hV]
    exact ⟨rfl, .of_words rfl hwords⟩

/-- **One result in registers**, on top of the survivors. -/
theorem put_sim {R : Nat → BitVec 64} {env : Env} {vals : String → Entry} {mem : List Entry} {so : StackParam}
    (hso : ResultSafe m pw op B env vals so) {k : Nat}
    (hwords : cached.flatMap Entry.words = (List.range' (swidth pw so.ty) k).map R) :
    let P := runWrites m op B env vals [writeOf pw false so] ⟨junk, cached ++ mem, w⟩
    let V := runWrites m op B env vals [writeOf pw true so] ⟨R, mem, w⟩
    P.world = V.world ∧ Represents V.regs (swidth pw so.ty + k) V.mem P.mem := by
  intro P V
  obtain ⟨R', hput, hhead, hrest⟩ := put_result hso ⟨R, mem, w⟩
  have hP : P = ⟨junk, resultEntry m op B env vals so (m.popScalar so.ty) :: (cached ++ mem), w⟩ := by
    simp only [P, runWrites, writeOf, hso.fixed, Option.isSome_none, Bool.false_eq_true, if_false, Bool.not_false, if_true,
      Write.run]
  have hV : V = ⟨R', mem, w⟩ := by
    simp only [V, runWrites, hput]
  rw [hP, hV]
  refine ⟨rfl, .of_words (List.cons_append ..).symm ?_⟩
  have hkept : (List.range' (swidth pw so.ty) k).map R' = (List.range' (swidth pw so.ty) k).map R :=
    List.map_congr_left fun r hr => hrest r (List.mem_range'_1.1 hr).1
  rw [List.flatMap_cons, hhead, hwords, ← hkept, ← List.map_append, List.range_eq_range', ← List.range'_append_1,
    Nat.zero_add]

include hvar hvariant hform hsafe in
/-- **What comes after the reads.** -/
theorem finish_sim (hsteady : Steady op B)
    (hpoly : cacheRes n pw op.toOpcode (some st) memResult = true →
      ∀ vals mem w', B.run (o.env.live op.toOpcode) o.variadic o.mem w = .done vals mem w' →
        ∀ so ∈ op.stackOut, polySlot so.ty = true → (vals so.pushedName).slots = swidth pw so.ty)
    (hb : Behind op.toOpcode regs (operandSlots pw op.toOpcode) st o v)
    (hnone : left pw op.toOpcode st ≠ 0 → v.variadic = []) (hfloats : FloatsNamed m op B o.env) :
    Simulated (exitState n pw op.toOpcode memResult st)
      (some ((stencil n pw op.toOpcode none false).finish m op B junk w o))
      (some ((stencil n pw op.toOpcode (some st) memResult).finish m op B regs w v)) := by
  obtain ⟨cached, hmem, hwords⟩ := hb.mem
  have hdeep : cached ≠ [] → left pw op.toOpcode st ≠ 0 := by
    intro hne hzero
    unfold left at hzero
    rw [hzero] at hwords
    exact hne (flatMap_words_eq_nil hwords)
  have hbody := body_sim (w := w) hsteady hb.env hb.variadic hmem fun hne =>
    ⟨(hvar.survivors (hdeep hne)).1, hvar.fixed (hdeep hne), hnone (hdeep hne)⟩
  unfold Stencil.finish
  rw [hbody] at hpoly ⊢
  rw [hb.env]
  cases hrun : B.run (v.env.live op.toOpcode) v.variadic v.mem w with
  | trap w' => rfl
  | resync mem' w' => exact ⟨rfl, rfl, resync_sim hvariant hform hsafe hwords ⟨_, _, _, _, _, _, hrun⟩ mem'⟩
  | done vals mem' w' =>
    have hdrop : dropVariadic op v.variadic (cached ++ mem') = cached ++ dropVariadic op v.variadic mem' :=
      dropVariadic_append (if hnil : cached = [] then .inl hnil else .inr (hnone (hdeep hnil))) mem'
    have hmoved : cached.flatMap Entry.words =
        (List.range' (cachedSlots n pw op st memResult) (left pw op.toOpcode st)).map
          (runMoves (stencil n pw op.toOpcode (some st) memResult).moves regs) := hwords.trans survivors_kept.symm
    have hplain : (stencil n pw op.toOpcode none false).writes = op.stackOut.map (writeOf pw false) := rfl
    simp only [Exit.mapMem, Simulated, hb.variadic, hdrop, hplain]
    rw [exitState_eq hvariant hform]
    refine ⟨trivial, ?_⟩
    cases hres : cacheRes n pw op.toOpcode (some st) memResult with
    | false =>
      have hzero : cachedSlots n pw op st memResult = 0 := by
        unfold cachedSlots
        rw [hres]
        rfl
      have hwrites : (stencil n pw op.toOpcode (some st) memResult).writes = op.stackOut.map (writeOf pw false) := by
        simp only [stencil, hres]
      rw [hzero] at hmoved
      rw [hzero, hwrites, Nat.zero_add]
      exact push_sim hvar hform hres hmoved
    | true =>
      have hcached : resultsCached n pw op.toOpcode st = true := by
        rw [cacheRes_some, Bool.and_eq_true] at hres
        exact hres.2
      obtain ⟨so, hout⟩ : ∃ so, op.stackOut = [so] := by
        refine List.length_eq_one_iff.1 (Nat.le_antisymm (hsafe.single hres) (List.length_pos_iff.2 fun hnil => ?_))
        simp [resultsCached, hnil] at hcached
      have hmem : so ∈ op.stackOut := hout ▸ List.mem_singleton_self so
      have hslots : cachedSlots n pw op st memResult = swidth pw so.ty := by
        simp [cachedSlots, hres, resultSlots, hout]
      have hwrites : (stencil n pw op.toOpcode (some st) memResult).writes = [writeOf pw true so] := by
        simp only [stencil, hres, hout, List.map_cons, List.map_nil]
      obtain ⟨hcount, hkind⟩ := resultsCached_spec hcached so hmem
      have hso : ResultSafe m pw op B (v.env.live op.toOpcode) vals so := {
        fixed := hcount
        kind := hkind
        poly := hpoly hres vals (cached ++ mem') w' (by rw [hrun]; rfl) so hmem
        macros := fun hc => (hsafe.results hres so hmem hc).1
        floats := fun hc hfloat => (hsafe.results hres so hmem hc).2 (typeOfVar_isFloat hfloats (hb.env ▸ hfloat)) }
      rw [hslots] at hmoved
      rw [hslots, hwrites, hout, List.map_singleton]
      exact put_sim hso hmoved

end

/-! ### Stencils of the tables -/

section

variable {m : Spec} {n : Nat} {pw : Bool} {op : VmOpcode} {W : Type} {B : Body W} {st : Nat} {memResult : Bool}

theorem positions_map_fst : ∀ (ps : List StackParam) (base : Nat), (positions pw base ps).map Prod.fst = ps
  | [], _ => rfl
  | _ :: ps, _ => congrArg _ (positions_map_fst ps _)

/-- The plain stencil has no flavour and no cache. -/
theorem plain_eq (n : Nat) (pw : Bool) (op : Opcode) : plain op = stencil n pw op none false := by
  have hread : ∀ pw, (operands pw op).map (readOf pw op none) =
      op.stackIn.reverse.map fun si => readOf false op none (si, 0) := by
    intro pw
    have hfst : (positions pw 0 op.stackIn.reverse).map Prod.fst = op.stackIn.reverse := positions_map_fst _ _
    conv_rhs => rw [← hfst, List.map_map]
    exact List.map_congr_left fun p _ => rfl
  have hwrite : writeOf pw false = writeOf false false := by
    funext so
    rfl
  unfold plain stencil
  simp only [Stencil.mk.injEq, true_and]
  exact ⟨(hread false).trans (hread pw).symm, by rw [show cacheRes n pw op none false = false from rfl, hwrite]; rfl⟩

/-- Without a cache, state 0 is the plain stencil. -/
theorem stencil_zero (pw : Bool) (op : Opcode) : stencil 0 pw op (some 0) false = plain op := by
  have hslot : ∀ p, operandSlot pw p 0 = none := fun p => by
    have := swidth_pos pw p.1.ty
    exact if_neg (by omega)
  have hcached : resultsCached 0 pw op 0 = false := by
    cases hout : op.stackOut with
    | nil => simp [resultsCached, hout]
    | cons so outs =>
      have := swidth_pos pw so.ty
      simp [resultsCached, resultSlots, hout, Nat.ne_of_gt this]
  rw [plain_eq 0 pw]
  unfold stencil
  have hres : cacheRes 0 pw op (some 0) false = false := hcached
  have hleft : left pw op 0 = 0 := Nat.zero_sub _
  simp only [hres, hleft, Stencil.mk.injEq, Bool.false_eq_true, if_false]
  refine ⟨List.map_congr_left fun p _ => ?_, ?_, rfl⟩
  · unfold readOf
    rw [Option.bind_some, Option.bind_none, hslot]
  · unfold survivorMoves
    simp

theorem read_variadic {p : StackParam × Nat} {state : Option Nat} {regs : Nat → BitVec 64} {w : W} {o o' : Operands}
    (hcount : p.1.count = none) (hrun : (readOf pw op.toOpcode state p).run m op B regs w o = some o') :
    o'.variadic = o.variadic := by
  have hpop : ∀ {k : Entry → List Entry → Option Operands}, (∀ e mem, ∀ x, k e mem = some x → x.variadic = o.variadic) →
      popEntry o.mem k = some o' → o'.variadic = o.variadic := by
    intro k hk h
    cases hmem : o.mem with
    | nil =>
      rw [hmem] at h
      cases h
    | cons e mem =>
      rw [hmem] at h
      exact hk e mem o' h
  unfold readOf at hrun
  simp only [hcount, Option.isSome_none, Bool.false_eq_true, if_false] at hrun
  split at hrun
  · split at hrun
    · exact Option.some_inj.1 hrun ▸ rfl
    · split at hrun
      · exact Option.some_inj.1 hrun ▸ rfl
      · split at hrun <;> exact Option.some_inj.1 hrun ▸ rfl
  · split at hrun
    · refine hpop ?_ hrun
      exact fun _ _ _ h => Option.some_inj.1 h ▸ rfl
    · split at hrun
      · refine hpop ?_ hrun
        exact fun _ _ _ h => Option.some_inj.1 h ▸ rfl
      · refine hpop ?_ hrun
        exact fun _ _ _ h => Option.some_inj.1 h ▸ rfl

theorem runReads_variadic {state : Option Nat} {regs : Nat → BitVec 64} {w : W} :
    ∀ {ps : List (StackParam × Nat)} {o o' : Operands}, (∀ p ∈ ps, p.1.count = none) →
      runReads m op B regs w (ps.map (readOf pw op.toOpcode state)) o = some o' → o'.variadic = o.variadic
  | [], _, _, _, hrun => Option.some_inj.1 hrun ▸ rfl
  | p :: ps, o, o', hps, hrun => by
    rw [List.map_cons, runReads, Option.bind_eq_some_iff] at hrun
    obtain ⟨o1, hrun1, hrest⟩ := hrun
    exact (runReads_variadic (fun q hq => hps q (List.mem_cons_of_mem _ hq)) hrest).trans
      (read_variadic (hps p List.mem_cons_self) hrun1)

/-- **A stencil of a state** simulates the plain one. -/
theorem stencil_sim (hvariant : hasVariant n pw op.toOpcode st = true)
    (hform : memResult = true → hasMemForm n pw op.toOpcode st = true) (hsafe : CacheSafe m n pw op B st memResult)
    (hsteady : Steady op B) {stack : List Entry} {M : Machine W}
    (hinst : Instance m n pw op B st memResult stack M.world) (hrep : Represents M.regs st M.mem stack) (junk : Nat → BitVec 64) :
    Simulated (exitState n pw op.toOpcode memResult st) ((plain op.toOpcode).run m op B ⟨junk, stack, M.world⟩)
      ((stencil n pw op.toOpcode (some st) memResult).run m op B M) := by
  have hvar := hasVariant_spec hvariant
  obtain ⟨cached, hstack, hwords⟩ := hrep
  have hstart : Behind op.toOpcode M.regs 0 st ⟨B.imm, stack, []⟩ ⟨B.imm, M.mem, []⟩ := {
    mem := ⟨cached, hstack, by rw [hwords, List.range_eq_range', Nat.sub_zero]⟩
    env := rfl
    variadic := rfl }
  have hrides : ∀ p ∈ positions pw 0 op.stackIn.reverse, (operandSlot pw p st).isSome →
      p.1.count = none ∧ Rides m p.1.ty := fun p hp hsome =>
    ⟨(hvar.rides p hp hsome).1, (hvar.rides p hp hsome).2, hsafe.operands p hp hsome⟩
  have hreads := @reads_sim m pw op W B M.regs junk M.world st op.stackIn.reverse 0 ⟨B.imm, stack, []⟩ ⟨B.imm, M.mem, []⟩
    hvar.ends hrides hinst.operands hstart
  rw [Nat.zero_add, sum_widths] at hreads
  rw [plain_eq n pw]
  unfold Stencil.run
  rcases hreads with ⟨hp, hv⟩ | ⟨o, v, hp, hv, hb⟩
  · rw [show (stencil n pw op.toOpcode none false).reads = (positions pw 0 op.stackIn.reverse).map
        (readOf pw op.toOpcode none) from rfl, hp,
      show (stencil n pw op.toOpcode (some st) memResult).reads = (positions pw 0 op.stackIn.reverse).map
        (readOf pw op.toOpcode (some st)) from rfl, hv]
    trivial
  · rw [show (stencil n pw op.toOpcode none false).reads = (positions pw 0 op.stackIn.reverse).map
        (readOf pw op.toOpcode none) from rfl, hp,
      show (stencil n pw op.toOpcode (some st) memResult).reads = (positions pw 0 op.stackIn.reverse).map
        (readOf pw op.toOpcode (some st)) from rfl, hv]
    refine finish_sim hvar hvariant hform hsafe hsteady
      (fun hres => hinst.results hres junk o (by rw [plain_eq n pw]; exact hp)) hb (fun hleft => ?_) ?_
    · exact runReads_variadic (fun p hp => (hvar.rides p hp (covered_of_left hleft hp)).1) hv
    · exact plain_reads_floats (fun si hsi => List.mem_reverse.1 hsi) (fun x val hval hfloat => .inr (.inl ⟨val, hval, hfloat⟩)) hp

/-- **A stencil that the tables name** is one of its state. -/
theorem variant_spec {S : Stencil} (hS : variant n pw op.toOpcode memResult st = some S) :
    hasVariant n pw op.toOpcode st = true ∧ (memResult = true → hasMemForm n pw op.toOpcode st = true) ∧
      S = stencil n pw op.toOpcode (some st) memResult := by
  unfold variant at hS
  split at hS
  case isTrue => cases hS
  case isFalse hle =>
    cases memResult with
    | true =>
      rw [if_pos rfl] at hS
      split at hS
      case isFalse => cases hS
      case isTrue hrow =>
        rw [Bool.and_eq_true] at hrow
        exact ⟨(hasMemForm_spec hrow.2).1, fun _ => hrow.2, (Option.some_inj.1 hS).symm⟩
    | false =>
      rw [if_neg Bool.false_ne_true] at hS
      split at hS
      case isTrue hn =>
        split at hS
        case isFalse => cases hS
        case isTrue =>
          obtain rfl : st = 0 := by omega
          subst hn
          exact ⟨rfl, (fun h => by cases h), (Option.some_inj.1 hS).symm.trans (stencil_zero pw op.toOpcode).symm⟩
      case isFalse =>
        unfold variantState at hS
        split at hS
        case isFalse => cases hS
        case isTrue hrow =>
          rw [Bool.and_eq_true] at hrow
          refine ⟨hrow.2, (fun h => by cases h), ?_⟩
          cases hshare : sameStateAs n pw op.toOpcode st with
          | none =>
            rw [hshare] at hS
            exact (Option.some_inj.1 hS).symm
          | some share =>
            rw [hshare] at hS
            exact (Option.some_inj.1 hS).symm.trans (stencil_shared (sameStateAs_eq_some.1 hshare).1.2)

end

end Bbq.Opgen
