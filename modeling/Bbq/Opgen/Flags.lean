import Bbq.Opgen.Spec

/-!
# Flags of an opcode

`Spec::compute_flags` (`opgen/src/spec.cpp:104-201`): what the tables tell a consumer an opcode does, read off its
declaration and off its body.

* `localAccessFlags` looks into blocks. It does not look into conditionals and loops, nor at `push`.
* A body runs on a `Host`, which says what expressions come to: operands, slots and natives are its state.
* **`flags_iff`**: no run of the body does what its flags do not say, unless it does it where the walk does not look and
  the flag is not set from elsewhere.
-/

namespace Bbq.Opgen

/-! ## The flags -/

/-- An opcode with the annotations that the tables are derived from. -/
structure TableOpcode extends Opcode where
  flags : List String
  /-- Whether a `local_value` is declared. -/
  localValue : Bool
  /-- The condition of a `branch:`, as it is written. -/
  br : Option String
  /-- Which operands are constant pool references. -/
  cpRefs : List Bool

/-- `OPCF_*`. -/
structure OpcodeFlags where
  branch : Bool := false
  returns : Bool := false
  invoke : Bool := false
  switch : Bool := false
  hasCpRef : Bool := false
  endsBB : Bool := false
  localLoad : Bool := false
  localStore : Bool := false
  noFallthrough : Bool := false
  deriving DecidableEq, Repr

/-- `is_local_slot`: a direct `locals[…]`. -/
def SemExpr.isLocalSlot : SemExpr → Bool
  | .index (.ident base) _ => base == "locals"
  | _ => false

mutual

/-- `local_access_flags`. -/
def localAccessFlags (f : OpcodeFlags) : SemStmt → OpcodeFlags
  | .assign target value =>
    if target.isLocalSlot then { f with localStore := true }
    else if value.isLocalSlot then { f with localLoad := true }
    else f
  | .block stmts => localAccessAll f stmts
  | _ => f

def localAccessAll (f : OpcodeFlags) : List SemStmt → OpcodeFlags
  | [] => f
  | s :: ss => localAccessAll (localAccessFlags f s) ss

end

def TableOpcode.hasFlag (op : TableOpcode) (name : String) : Bool := op.flags.any (· == name)

def TableOpcode.isReturn (op : TableOpcode) : Bool :=
  op.mnemonic == "sreturn" || op.mnemonic == "ireturn" || op.mnemonic == "areturn" || op.mnemonic == "return"

/-- `compute_flags`, up to the body. -/
def TableOpcode.declaredFlags (op : TableOpcode) : OpcodeFlags :=
  let branch := op.br.isSome || op.hasFlag "branch"
  let returns := op.isReturn
  let switch := op.hasFlag "special_switch"
  let transfersAlways := returns || switch || op.mnemonic == "athrow" || op.hasFlag "special_jsr" ||
    op.hasFlag "special_ret" || op.br == some "\"1\""
  { branch, returns, switch
    invoke := "invoke".isPrefixOf op.mnemonic
    hasCpRef := op.cpRefs.any id
    endsBB := branch || transfersAlways
    noFallthrough := transfersAlways }

/-- `compute_flags`. -/
def TableOpcode.computeFlags (op : TableOpcode) : OpcodeFlags :=
  let f := localAccessAll op.declaredFlags op.semBody
  if op.semBody.isEmpty && op.localValue then
    if !op.stackOut.isEmpty then { f with localLoad := true }
    else if !op.stackIn.isEmpty then { f with localStore := true }
    else if !f.endsBB then { f with localStore := true }
    else f
  else f

/-- A branch, return, switch or jump by its declaration. -/
def TableOpcode.transfers (op : TableOpcode) : Bool :=
  op.br.isSome || op.hasFlag "branch" || op.isReturn || op.hasFlag "special_switch" || op.hasFlag "special_jsr" ||
    op.hasFlag "special_ret"

/-! ## Runs of a body -/

/-- What a body runs on: what conditions come to and leave, and what a simple statement does. -/
structure Host (σ : Type) where
  test : SemExpr → σ → Bool
  tested : SemExpr → σ → σ
  perform : SemStmt → σ → σ
  /-- A native declared with the return type `status`: the handler runs it and dispatches. -/
  status : String → Bool

/-- A statement to come; `guarded` under a conditional or a loop. -/
structure Pending where
  guarded : Bool
  stmt : SemStmt

/-- A body on its way. -/
structure Config (σ : Type) where
  state : σ
  rest : List Pending

/-- The statements of a block, guarded as it is. -/
def pend (guarded : Bool) (ss : List SemStmt) : List Pending := ss.map (⟨guarded, ·⟩)

section

variable {σ : Type} (H : Host σ) (op : TableOpcode)

/-- One statement, as `lower_stmt` emits it; none when the body is over, left by a native or stopped by a trap. -/
def Config.step (c : Config σ) : Option (Config σ) :=
  match c.rest with
  | [] => none
  | ⟨g, s⟩ :: k =>
    match s with
    | .assign _ _ | .localDecl _ _ _ => some ⟨H.perform s c.state, k⟩
    | .exprStmt (.call name _) =>
      if name ∉ intrinsics ∧ H.status name then none else some ⟨H.perform s c.state, k⟩
    | .exprStmt _ => some ⟨H.perform s c.state, k⟩
    | .if_ cond then_ else_ =>
      if H.test cond c.state then some ⟨H.tested cond c.state, ⟨true, then_⟩ :: k⟩
      else some ⟨H.tested cond c.state, pend true else_.toList ++ k⟩
    | .while_ cond body =>
      if H.test cond c.state then some ⟨H.tested cond c.state, ⟨true, body⟩ :: ⟨g, .while_ cond body⟩ :: k⟩
      else some ⟨H.tested cond c.state, k⟩
    | .for_ init cond update body =>
      some ⟨c.state, pend true init.toList ++
        ⟨true, .while_ (cond.getD (.int 1)) (.block (body :: update.toList))⟩ :: k⟩
    | .block ss => some ⟨c.state, pend g ss ++ k⟩
    | .trap => none

/-- The body after `n` statements, if it gets that far. -/
def Config.after (c : Config σ) : Nat → Option (Config σ)
  | 0 => some c
  | n + 1 => (c.step H).bind (·.after n)

/-- `c` comes up in a run of the body. -/
def Reaches (c : Config σ) : Prop :=
  ∃ s n, Config.after H ⟨s, pend false op.semBody⟩ n = some c

end

/-- The next statement. -/
def Config.next {σ : Type} (c : Config σ) : Option Pending := c.rest.head?

def SemStmt.stores : SemStmt → Bool
  | .assign target _ => target.isLocalSlot
  | _ => false

/-- `result = locals[…];`. -/
def SemStmt.loads (op : Opcode) : SemStmt → Bool
  | .assign (.ident x) value => op.stackOut.any (·.name == x) && value.isLocalSlot
  | _ => false

/-- `push(locals[…]);`. -/
def SemStmt.pushes : SemStmt → Bool
  | .exprStmt (.call name [e]) => name == "push" && e.isLocalSlot
  | _ => false

/-- A native that leaves the sequence. -/
def SemStmt.leaves (status : String → Bool) : SemStmt → Bool
  | .exprStmt (.call name _) => decide (name ∉ intrinsics) && status name
  | _ => false

mutual

/-- The statements of a body that the walk looks at. -/
def flat : SemStmt → List SemStmt
  | .block ss => flatAll ss
  | s => [s]

def flatAll : List SemStmt → List SemStmt
  | [] => []
  | s :: ss => flat s ++ flatAll ss

end

/-- The same to another thing than a slot. -/
def SemStmt.takesSlot : SemStmt → Bool
  | .assign target value => !target.isLocalSlot && value.isLocalSlot
  | _ => false

section

variable {σ : Type} (H : Host σ) (op : TableOpcode)

/-- **The flags do not under-report.** -/
structure Reported : Prop where
  store : ∀ c x, Reaches H op c → c.next = some x → x.stmt.stores = true → op.computeFlags.localStore = true
  load : ∀ c x, Reaches H op c → c.next = some x → (x.stmt.loads op.toOpcode || x.stmt.pushes) = true →
    op.computeFlags.localLoad = true
  leave : op.transfers = true → ∀ c x, Reaches H op c → c.next = some x → x.stmt.leaves H.status = true →
    op.computeFlags.endsBB = true

/-- What a run does where the walk does not look, the body does also where it looks. -/
structure Shown : Prop where
  store : ∀ c x, Reaches H op c → c.next = some x → x.stmt.stores = true → x.guarded = true →
    ∃ s ∈ flatAll op.semBody, s.stores = true
  load : ∀ c x, Reaches H op c → c.next = some x →
    (x.guarded && x.stmt.loads op.toOpcode || x.stmt.pushes) = true → ∃ s ∈ flatAll op.semBody, s.takesSlot = true

end

/-! ## The walk -/

section

variable {f : OpcodeFlags}

mutual

theorem localAccessFlags_store (f : OpcodeFlags) (s : SemStmt) :
    (localAccessFlags f s).localStore = (f.localStore || (flat s).any (·.stores)) := by
  match s with
  | .assign target value =>
    simp only [localAccessFlags, flat, List.any_cons, List.any_nil, SemStmt.stores, Bool.or_false]
    by_cases ht : target.isLocalSlot = true
    · simp [ht]
    · by_cases hv : value.isLocalSlot = true <;> simp [ht, hv]
  | .block ss => simpa only [localAccessFlags, flat] using localAccessAll_store f ss
  | .exprStmt _ | .localDecl _ _ _ | .if_ _ _ _ | .while_ _ _ | .for_ _ _ _ _ | .trap =>
    simp [localAccessFlags, flat, SemStmt.stores]

theorem localAccessAll_store (f : OpcodeFlags) (ss : List SemStmt) :
    (localAccessAll f ss).localStore = (f.localStore || (flatAll ss).any (·.stores)) := by
  match ss with
  | [] => simp [localAccessAll, flatAll]
  | s :: ss =>
    simp only [localAccessAll, flatAll, List.any_append]
    rw [localAccessAll_store _ ss, localAccessFlags_store f s, Bool.or_assoc]

end

mutual

theorem localAccessFlags_load (f : OpcodeFlags) (s : SemStmt) :
    (localAccessFlags f s).localLoad = (f.localLoad || (flat s).any (·.takesSlot)) := by
  match s with
  | .assign target value =>
    simp only [localAccessFlags, flat, List.any_cons, List.any_nil, SemStmt.takesSlot, Bool.or_false]
    by_cases ht : target.isLocalSlot = true
    · simp [ht]
    · by_cases hv : value.isLocalSlot = true <;> simp [ht, hv]
  | .block ss => simpa only [localAccessFlags, flat] using localAccessAll_load f ss
  | .exprStmt _ | .localDecl _ _ _ | .if_ _ _ _ | .while_ _ _ | .for_ _ _ _ _ | .trap =>
    simp [localAccessFlags, flat, SemStmt.takesSlot]

theorem localAccessAll_load (f : OpcodeFlags) (ss : List SemStmt) :
    (localAccessAll f ss).localLoad = (f.localLoad || (flatAll ss).any (·.takesSlot)) := by
  match ss with
  | [] => simp [localAccessAll, flatAll]
  | s :: ss =>
    simp only [localAccessAll, flatAll, List.any_append]
    rw [localAccessAll_load _ ss, localAccessFlags_load f s, Bool.or_assoc]

end

mutual

theorem localAccessFlags_endsBB (f : OpcodeFlags) (s : SemStmt) : (localAccessFlags f s).endsBB = f.endsBB := by
  match s with
  | .assign target value =>
    unfold localAccessFlags
    split
    · rfl
    · split <;> rfl
  | .block ss => simpa only [localAccessFlags] using localAccessAll_endsBB f ss
  | .exprStmt _ | .localDecl _ _ _ | .if_ _ _ _ | .while_ _ _ | .for_ _ _ _ _ | .trap => rfl

theorem localAccessAll_endsBB (f : OpcodeFlags) (ss : List SemStmt) : (localAccessAll f ss).endsBB = f.endsBB := by
  match ss with
  | [] => rfl
  | s :: ss =>
    unfold localAccessAll
    rw [localAccessAll_endsBB _ ss, localAccessFlags_endsBB f s]

end

end

section

variable {op : TableOpcode}

theorem computeFlags_of_body (h : op.semBody ≠ []) : op.computeFlags = localAccessAll op.declaredFlags op.semBody := by
  unfold TableOpcode.computeFlags
  rcases hb : op.semBody with _ | ⟨s, ss⟩
  · exact absurd hb h
  · rfl

theorem computeFlags_store (h : op.semBody ≠ []) :
    op.computeFlags.localStore = true ↔ ∃ s ∈ flatAll op.semBody, s.stores = true := by
  rw [computeFlags_of_body h, localAccessAll_store, ← List.any_eq_true]
  rfl

theorem computeFlags_load (h : op.semBody ≠ []) :
    op.computeFlags.localLoad = true ↔ ∃ s ∈ flatAll op.semBody, s.takesSlot = true := by
  rw [computeFlags_of_body h, localAccessAll_load, ← List.any_eq_true]
  rfl

/-- **A declared transfer ends its block.** -/
theorem computeFlags_endsBB (h : op.transfers = true) : op.computeFlags.endsBB = true := by
  have hdeclared : op.declaredFlags.endsBB = true := by
    simp only [TableOpcode.transfers, Bool.or_eq_true] at h
    simp only [TableOpcode.declaredFlags, Bool.or_eq_true]
    tauto
  have hwalk : (localAccessAll op.declaredFlags op.semBody).endsBB = true := by rw [localAccessAll_endsBB, hdeclared]
  unfold TableOpcode.computeFlags
  dsimp only
  split
  · split
    · exact hwalk
    · split
      · exact hwalk
      · split <;> exact hwalk
  · exact hwalk

end

/-! ## Runs -/

section

variable {σ : Type} {H : Host σ} {op : TableOpcode} {body : List SemStmt} {c c' : Config σ}

/-- What is to come without a guard, the walk looks at. -/
def Config.Flat (body : List SemStmt) (c : Config σ) : Prop :=
  ∀ x ∈ c.rest, x.guarded = false → flat x.stmt ⊆ flatAll body

theorem flat_subset {s : SemStmt} {ss : List SemStmt} (h : s ∈ ss) : flat s ⊆ flatAll ss := by
  induction ss with
  | nil => cases h
  | cons t ss ih =>
    unfold flatAll
    rcases List.mem_cons.1 h with rfl | h
    · exact List.subset_append_left _ _
    · exact List.subset_append_of_subset_right _ (ih h)

theorem Config.Flat.start (s : σ) : Config.Flat body ⟨s, pend false body⟩ := by
  intro x hx _
  obtain ⟨t, ht, rfl⟩ := List.mem_map.1 hx
  exact flat_subset ht

/-- **One statement** leaves what is to come within what the walk looks at. -/
theorem Config.Flat.step (h : c.Flat body) (hstep : c.step H = some c') : c'.Flat body := by
  obtain ⟨state, _ | ⟨⟨g, s⟩, k⟩⟩ := c
  · cases hstep
  have hk : ∀ x ∈ k, x.guarded = false → flat x.stmt ⊆ flatAll body := fun x hx => h x (List.mem_cons_of_mem _ hx)
  have hs : g = false → flat s ⊆ flatAll body := h ⟨g, s⟩ List.mem_cons_self
  have hguarded (ss : List SemStmt) (k' : List Pending) (hk' : ∀ x ∈ k', x.guarded = false → flat x.stmt ⊆ flatAll body) :
      ∀ x ∈ pend true ss ++ k', x.guarded = false → flat x.stmt ⊆ flatAll body := by
    intro x hx hg
    rcases List.mem_append.1 hx with hx | hx
    · obtain ⟨t, -, rfl⟩ := List.mem_map.1 hx
      cases hg
    · exact hk' x hx hg
  unfold Config.step at hstep
  cases s with
  | assign t v => cases hstep; exact hk
  | localDecl ty x init => cases hstep; exact hk
  | exprStmt e =>
    cases e with
    | call name args =>
      dsimp only at hstep
      split at hstep
      · cases hstep
      · cases hstep; exact hk
    | _ => cases hstep; exact hk
  | if_ cond then_ else_ =>
    dsimp only at hstep
    split at hstep
    · cases hstep
      exact hguarded [then_] k hk
    · cases hstep
      exact hguarded else_.toList k hk
  | while_ cond b =>
    dsimp only at hstep
    split at hstep
    · cases hstep
      refine hguarded [b] (⟨g, .while_ cond b⟩ :: k) fun x hx hg => ?_
      rcases List.mem_cons.1 hx with rfl | hx
      · exact hs hg
      · exact hk x hx hg
    · cases hstep; exact hk
  | for_ init cond update b =>
    cases hstep
    refine hguarded init.toList (⟨true, _⟩ :: k) fun x hx hg => ?_
    rcases List.mem_cons.1 hx with rfl | hx
    · cases hg
    · exact hk x hx hg
  | block ss =>
    cases hstep
    intro x hx hg
    rcases List.mem_append.1 hx with hx | hx
    · obtain ⟨t, ht, rfl⟩ := List.mem_map.1 hx
      exact List.Subset.trans (flat_subset ht) (hs hg)
    · exact hk x hx hg
  | trap => cases hstep

/-- The same after any number of them. -/
theorem Config.Flat.after (n : Nat) (h : c.Flat body) (hrun : c.after H n = some c') : c'.Flat body := by
  induction n generalizing c with
  | zero => cases hrun; exact h
  | succ n ih =>
    obtain ⟨d, hd, hrun⟩ := Option.bind_eq_some_iff.1 hrun
    exact ih (h.step hd) hrun

theorem Reaches.flat {x : Pending} (h : Reaches H op c) (hnext : c.next = some x) (hg : x.guarded = false) :
    Opgen.flat x.stmt ⊆ flatAll op.semBody := by
  obtain ⟨s, n, hrun⟩ := h
  exact (Config.Flat.start s).after n hrun x (List.mem_of_mem_head? hnext) hg

/-- A body that a run is in has statements. -/
theorem Reaches.body_ne_nil {x : Pending} (h : Reaches H op c) (hnext : c.next = some x) : op.semBody ≠ [] := by
  intro hb
  obtain ⟨s, n, hrun⟩ := h
  rw [hb] at hrun
  rcases n with _ | n
  · cases hrun
    cases hnext
  · cases hrun

theorem flat_of_stores {s : SemStmt} (h : s.stores = true) : flat s = [s] := by
  cases s <;> first | rfl | cases h

theorem flat_of_loads {s : SemStmt} {op : Opcode} (h : s.loads op = true) : flat s = [s] := by
  cases s <;> first | rfl | cases h

theorem takesSlot_of_loads {s : SemStmt} {op : Opcode} (h : s.loads op = true) : s.takesSlot = true := by
  cases s with
  | assign target value =>
    cases target with
    | ident x =>
      simp only [SemStmt.loads, Bool.and_eq_true] at h
      show (!(SemExpr.ident x).isLocalSlot && value.isLocalSlot) = true
      rw [h.2]
      rfl
    | _ => cases h
  | _ => cases h

/-- **When the flags of an opcode do not under-report**: whenever what its body does under a conditional or a loop, or
pushes, it does elsewhere as well. -/
theorem flags_iff (H : Host σ) (op : TableOpcode) : Reported H op ↔ Shown H op := by
  constructor
  · intro h
    refine ⟨fun c x hc hx hs _ => ?_, fun c x hc hx hl => ?_⟩
    · exact (computeFlags_store (hc.body_ne_nil hx)).1 (h.store c x hc hx hs)
    · refine (computeFlags_load (hc.body_ne_nil hx)).1 (h.load c x hc hx ?_)
      simp only [Bool.or_eq_true, Bool.and_eq_true] at hl ⊢
      exact hl.imp_left And.right
  · intro h
    refine ⟨fun c x hc hx hs => ?_, fun c x hc hx hl => ?_, fun ht _ _ _ _ _ => computeFlags_endsBB ht⟩
    · refine (computeFlags_store (hc.body_ne_nil hx)).2 ?_
      rcases hg : x.guarded with _ | _
      · have hflat := hc.flat hx hg
        rw [flat_of_stores hs] at hflat
        exact ⟨x.stmt, hflat List.mem_cons_self, hs⟩
      · exact h.store c x hc hx hs hg
    · refine (computeFlags_load (hc.body_ne_nil hx)).2 ?_
      rcases hl : x.stmt.loads op.toOpcode with _ | _
      · rename_i hpush
        refine h.load c x hc hx ?_
        rw [hl] at hpush
        simpa [hl] using hpush
      · rcases hg : x.guarded with _ | _
        · have hflat := hc.flat hx hg
          rw [flat_of_loads hl] at hflat
          exact ⟨x.stmt, hflat List.mem_cons_self, takesSlot_of_loads hl⟩
        · refine h.load c x hc hx ?_
          simp [hl, hg]

end

/-- `store_if [ u8 idx ] (i32 c, i32 v -- ) (. if (c != 0) locals[idx] = v; .)` -/
def storeIf : TableOpcode where
  mnemonic := "store_if"
  operands := [⟨.u8, "idx"⟩]
  stackIn := [⟨.i32, "c", none, none, none⟩, ⟨.i32, "v", none, none, none⟩]
  stackOut := []
  errors := []
  semBody := [.if_ (.binOp "!=" (.ident "c") (.int 0)) (.assign (.index (.ident "locals") (.ident "idx")) (.ident "v")) none]
  flags := []
  localValue := false
  br := none
  cpRefs := [false]

/-- Where `c` is not zero. -/
def taken : Host Unit where
  test := fun _ _ => true
  tested := fun _ s => s
  perform := fun _ s => s
  status := fun _ => false

/-- **A store under a conditional that no flag tells of.** -/
theorem store_unreported : storeIf.computeFlags.localStore = false ∧ ¬ Reported taken storeIf :=
  ⟨by decide, fun h => absurd (h.store _ _ ⟨(), 1, rfl⟩ rfl rfl) (by decide)⟩

end Bbq.Opgen
