import Bbq.Opgen.Kernel
import Bbq.Opgen.Scope

/-!
# Kernels and handlers that agree

* `Generated` is an opcode whose two functions a compiler takes, with one C type for each slot class it uses.
* The handler starts from the variables of the kernel, as far as it has them (`handlerStart_eq`), so the two run alike
  and differ only in the outputs they read at the end (`kernel_eq_handler_iff`).
* `Definite`: what the handler's uninitialised variables hold does not matter. `Forwards`: every output is pushed, and
  one forwarded under a name of its own forwards what that name holds.
* **`kernel_agrees_iff`**: without a guard that fires, the two are what agreement takes.
-/

namespace Bbq.Opgen

variable {A : Arith}

/-! ## Bindings -/

theorem bindAll_of_not_mem {bs : List (Binding A)} {x : String} (h : x ∉ bs.map (·.1)) (vars : Vars A) :
    bindAll bs vars x = vars x := by
  induction bs generalizing vars with
  | nil => rfl
  | cons b bs ih =>
    rw [List.map_cons, List.mem_cons, not_or] at h
    have hrest := ih h.2 (vars.set b.1 b.2.1 b.2.2)
    rw [Vars.set_of_ne h.1] at hrest
    exact hrest

theorem bindAll_of_mem {bs : List (Binding A)} {b : Binding A} (hn : (bs.map (·.1)).Nodup) (hb : b ∈ bs) (vars : Vars A) :
    bindAll bs vars b.1 = b.2 := by
  induction bs generalizing vars with
  | nil => exact nomatch hb
  | cons c bs ih =>
    rw [List.map_cons, List.nodup_cons] at hn
    rcases List.mem_cons.1 hb with rfl | hb
    · have hrest := bindAll_of_not_mem hn.1 (vars.set b.1 b.2.1 b.2.2)
      rw [Vars.set_self] at hrest
      exact hrest
    · exact ih hn.2 hb _

/-- Of two lists of bindings, one of which has the other's, each name of the smaller has one value. -/
theorem bindAll_eq {bs cs : List (Binding A)} (hbs : (bs.map (·.1)).Nodup) (hcs : (cs.map (·.1)).Nodup) (h : bs ⊆ cs)
    {x : String} (hx : x ∈ bs.map (·.1)) (vars vars' : Vars A) : bindAll bs vars x = bindAll cs vars' x := by
  obtain ⟨b, hb, rfl⟩ := List.mem_map.1 hx
  rw [bindAll_of_mem hbs hb, bindAll_of_mem hcs (h hb)]

/-! ## Opcodes -/

variable {m : Spec} {op : Opcode}

/-- An opcode with a kernel, whose functions compile and whose slot classes have one C type each. -/
structure Generated (m : Spec) (op : Opcode) : Prop where
  closed : m.openReason op = none
  handlerOk : handlerCompiles m op = true
  kernelOk : kernelCompiles m op = true
  /-- An input the handler pops has the C type of its class. -/
  inputs : ∀ si ∈ livePops op, m.poppedScalar si.ty = m.cScalar si.ty
  outputs : ∀ so ∈ op.stackOut, so.count = none → m.poppedScalar so.ty = m.cScalar so.ty
  memargs : ∀ od ∈ op.operands, m.decodedScalar od.ty = m.cScalar od.ty
  /-- An output the handler declares a local for has no parameter's name. -/
  own : ∀ so ∈ op.stackOut, so.hasLocal = true → op.isParamName so.name = false

namespace Generated

theorem handlerNames (h : Generated m op) : (handlerParams op ++ handlerOuts op).Nodup := by
  have hc := h.handlerOk
  simp only [handlerCompiles, Bool.and_eq_true] at hc
  have hn := of_decide_eq_true hc.1.1.1
  rw [List.append_assoc] at hn
  exact (List.nodup_append.1 hn).2.1

theorem kernelNames (h : Generated m op) : (kernelParams op ++ (kernelOuts op).map (·.name)).Nodup := by
  have hc := h.kernelOk
  simp only [kernelCompiles, Bool.and_eq_true] at hc
  have hn := of_decide_eq_true hc.1
  rw [List.append_assoc] at hn
  exact (List.nodup_append.1 hn).2.1

theorem handlerBody (h : Generated m op) :
    bodyCompiles m op (handlerParams op) (handlerParams op ++ handlerOuts op) (handlerReserved op) = true := by
  have hc := h.handlerOk
  simp only [handlerCompiles, Bool.and_eq_true] at hc
  exact hc.2

theorem kernelBody (h : Generated m op) :
    bodyCompiles m op (kernelParams op ++ (kernelOuts op).map (·.name))
      (kernelParams op ++ (kernelOuts op).map (·.name)) (kernelReserved op) = true := by
  have hc := h.kernelOk
  simp only [kernelCompiles, Bool.and_eq_true] at hc
  exact hc.2

/-- A name the handler pushes is one it declares. -/
theorem pushes (h : Generated m op) {so : StackParam} (hso : so ∈ op.stackOut) (hcount : so.count = none) :
    so.pushedName ∈ handlerParams op ++ handlerOuts op ++ declared (bodyText m op) := by
  have hc := h.handlerOk
  simp only [handlerCompiles, Bool.and_eq_true] at hc
  have hout := List.all_eq_true.1 hc.1.2 so hso
  rw [hcount] at hout
  simp only [Option.isSome_none, Bool.false_eq_true, if_false, Bool.and_eq_true] at hout
  exact of_decide_eq_true hout.2

end Generated

theorem bodyCompiles_guard {params names reserved : List String} (h : bodyCompiles m op params names reserved = true)
    {g : SemExpr × String} (hg : g ∈ guards op) : ∃ c, lowerGuard m op g.1 = some c ∧ c.scoped params = true := by
  rw [bodyCompiles, Bool.and_eq_true] at h
  have hguard := List.all_eq_true.1 h.1 g hg
  rcases hc : lowerGuard m op g.1 with _ | c
  · rw [hc] at hguard
    exact nomatch hguard
  · rw [hc] at hguard
    exact ⟨c, rfl, hguard⟩

theorem bodyCompiles_body {params names reserved : List String} (h : bodyCompiles m op params names reserved = true) :
    CStmt.scopedAll [] names (bodyText m op) = true := by
  rw [bodyCompiles, Bool.and_eq_true] at h
  unfold bodyText
  rcases hb : lowerStmts m op op.semBody with _ | body
  · rw [hb] at h
    exact nomatch h.2
  · rw [hb] at h
    exact (Bool.and_eq_true_iff.1 h.2).1

/-! ## Where the two start -/

section

variable (inp : Inputs A) (held : String → A.Val)

theorem handlerBindings_names : (handlerBindings m op A inp).map (·.1) = handlerParams op := by
  simp [handlerBindings, handlerParams, bound, Function.comp_def]

theorem outBindings_names : (outBindings m op A held).map (·.1) = handlerOuts op := by
  simp [outBindings, handlerOuts, bound, Function.comp_def]

theorem kernelBindings_names : (kernelBindings m op A inp).map (·.1) = kernelParams op ++ (kernelOuts op).map (·.name) := by
  simp [kernelBindings, kernelParams, bound, Function.comp_def]

theorem Generated.params_subset (h : Generated m op) : handlerBindings m op A inp ⊆ kernelBindings m op A inp := by
  intro b hb
  rcases List.mem_append.1 hb with hb | hb
  · obtain ⟨od, hod, rfl⟩ := List.mem_map.1 hb
    rw [h.memargs od hod]
    exact List.mem_append_left _ (List.mem_append_right _ (List.mem_map.2 ⟨od, hod, rfl⟩))
  · obtain ⟨si, hsi, rfl⟩ := List.mem_map.1 hb
    rw [h.inputs si hsi]
    have hin : si ∈ op.stackIn := List.mem_reverse.1 (List.mem_filter.1 hsi).1
    exact List.mem_append_left _ (List.mem_append_left _ (List.mem_map.2 ⟨si, hin, rfl⟩))

theorem Generated.outs_subset (h : Generated m op) : outBindings m op A (fun _ => A.const 0) ⊆ kernelBindings m op A inp := by
  intro b hb
  obtain ⟨so, hso, rfl⟩ := List.mem_map.1 hb
  obtain ⟨hmem, hlocal⟩ := List.mem_filter.1 hso
  have hout : so ∈ kernelOuts op := List.mem_filter.2 ⟨hmem, by rw [h.own so hmem hlocal]; rfl⟩
  exact List.mem_append_right _ (List.mem_map.2 ⟨so, hout, rfl⟩)

/-- The parameters of the handler are the kernel's. -/
theorem Generated.handlerVars_eq (h : Generated m op) {x : String} (hx : x ∈ handlerParams op) :
    handlerVars m op A inp x = kernelStart m op A inp x := by
  refine bindAll_eq ?_ ?_ (h.params_subset inp) ?_ _ _
  · rw [handlerBindings_names]
    exact (List.nodup_append.1 h.handlerNames).1
  · rw [kernelBindings_names]
    exact h.kernelNames
  · rwa [handlerBindings_names]

/-- With zeros in its locals the handler starts from the variables of the kernel. -/
theorem Generated.handlerStart_eq (h : Generated m op) {x : String} (hx : x ∈ handlerParams op ++ handlerOuts op) :
    handlerStart m op A inp (fun _ => A.const 0) x = kernelStart m op A inp x := by
  have hstart : handlerStart m op A inp (fun _ => A.const 0) =
      bindAll (handlerBindings m op A inp ++ outBindings m op A fun _ => A.const 0) (noVars A) :=
    (List.foldl_append ..).symm
  have hnames : (handlerBindings m op A inp ++ outBindings m op A fun _ => A.const 0).map (·.1) =
      handlerParams op ++ handlerOuts op := by
    rw [List.map_append, handlerBindings_names, outBindings_names]
  rw [hstart]
  refine bindAll_eq ?_ ?_ (List.append_subset.2 ⟨h.params_subset inp, h.outs_subset inp⟩) ?_ _ _
  · rw [hnames]
    exact h.handlerNames
  · rw [kernelBindings_names]
    exact h.kernelNames
  · rwa [hnames]

/-- The same guard fires in both. -/
theorem Generated.firedGuard_eq (h : Generated m op) :
    firedGuard m op A (handlerVars m op A inp) = firedGuard m op A (kernelStart m op A inp) := by
  unfold firedGuard
  have hall : ∀ g ∈ guards op,
      ((lowerGuard m op g.1).bind fun c =>
        if A.truth (c.eval A (handlerVars m op A inp)) then some (m.errorCode g.2) else none) =
      (lowerGuard m op g.1).bind fun c =>
        if A.truth (c.eval A (kernelStart m op A inp)) then some (m.errorCode g.2) else none := by
    intro g hg
    obtain ⟨c, hc, hs⟩ := bodyCompiles_guard h.handlerBody hg
    rw [hc, Option.bind_some, Option.bind_some,
      CExpr.eval_of_scoped hs fun x hx => h.handlerVars_eq inp hx]
  generalize guards op = gs at hall
  induction gs with
  | nil => rfl
  | cons g gs ih =>
    rw [List.findSome?_cons, List.findSome?_cons, hall g List.mem_cons_self,
      ih fun g' hg' => hall g' (List.mem_cons_of_mem _ hg')]

end

/-! ## Where they end -/

/-- What the name of an output holds at the end: what the body leaves in a variable of the handler, else what the kernel
started with. -/
def ownValue (m : Spec) (op : Opcode) (inp : Inputs A) (vars : Vars A) (name : String) : A.Val :=
  if name ∈ handlerParams op ++ handlerOuts op then (vars name).2 else (kernelStart m op A inp name).2

/-- The output is pushed, and holds under its own name what it forwards. -/
def Forwarded (m : Spec) (op : Opcode) (inp : Inputs A) (vars : Vars A) (so : StackParam) : Prop :=
  so.count = none ∧ (so.pushedName ≠ so.name →
    A.cast (m.cScalar so.ty) (vars so.pushedName).2 = A.cast (m.cScalar so.ty) (ownValue m op inp vars so.name))

theorem isParamName_iff {name : String} : op.isParamName name = true ↔ name ∈ kernelParams op := by
  simp [Opcode.isParamName, kernelParams]

/-- An output's name is a variable of the kernel. -/
theorem mem_kernelNames {so : StackParam} (hso : so ∈ op.stackOut) :
    so.name ∈ kernelParams op ++ (kernelOuts op).map (·.name) := by
  by_cases hp : op.isParamName so.name = true
  · exact List.mem_append_left _ (isParamName_iff.1 hp)
  · exact List.mem_append_right _ (List.mem_map.2 ⟨so, List.mem_filter.2 ⟨hso, by simpa using hp⟩, rfl⟩)

section

variable {inp : Inputs A} {vars vars' : Vars A} {junk : String → A.Val} {n : Nat}

/-- What the kernel's run leaves in the name of an output. -/
theorem Generated.kernel_own (h : Generated m op) {so : StackParam} (hso : so ∈ op.stackOut)
    (hrun : CStmt.runAll A junk n (bodyText m op) (kernelStart m op A inp) = some vars')
    (hsame : ∀ x ∈ declared (bodyText m op) ++ (handlerParams op ++ handlerOuts op), vars x = vars' x) :
    (vars' so.name).2 = ownValue m op inp vars so.name := by
  unfold ownValue
  by_cases hx : so.name ∈ handlerParams op ++ handlerOuts op
  · rw [if_pos hx, hsame _ (List.mem_append_right _ hx)]
  · have hfresh : so.name ∉ declared (bodyText m op) := fun hd =>
      scopedAll_fresh (bodyCompiles_body h.kernelBody) _ hd (mem_kernelNames hso)
    have hkeep := CStmt.runAll_keeps junk n (bodyText m op) (bodyCompiles_body h.handlerBody)
      (x := so.name) (by
        rw [List.append_nil]
        exact fun hm => (List.mem_append.1 hm).elim hfresh hx) hrun
    rw [if_neg hx, hkeep]

/-- An output is the same in both if and only if it is pushed and holds what it forwards. -/
theorem Generated.pushed_eq_iff (h : Generated m op) {so : StackParam} (hso : so ∈ op.stackOut)
    (hrun : CStmt.runAll A junk n (bodyText m op) (kernelStart m op A inp) = some vars')
    (hsame : ∀ x ∈ declared (bodyText m op) ++ (handlerParams op ++ handlerOuts op), vars x = vars' x) :
    some (A.cast (m.cScalar so.ty) (vars' so.name).2) = pushed m A vars so ↔ Forwarded m op inp vars so := by
  unfold pushed Forwarded
  rcases hcount : so.count with _ | c
  · rw [if_neg (by simp), Option.some_inj, h.outputs so hso hcount]
    simp only [true_and]
    by_cases hname : so.pushedName = so.name
    · have hmem : so.name ∈ declared (bodyText m op) ++ (handlerParams op ++ handlerOuts op) := by
        rw [← hname]
        exact (List.mem_append.1 (h.pushes hso hcount)).elim (List.mem_append_right _) (List.mem_append_left _)
      rw [hname, hsame _ hmem]
      exact ⟨fun _ hne => absurd rfl hne, fun _ => rfl⟩
    · rw [h.kernel_own hso hrun hsame]
      exact ⟨fun heq _ => heq.symm, fun heq => (heq hname).symm⟩
  · simp

variable (junk n) in
/-- **Without a guard that fires**, the kernel is the handler with zeros in its locals, if and only if every output that
comes out is pushed and holds what it forwards. -/
theorem Generated.kernel_eq_handler_iff (h : Generated m op) (hfired : firedGuard m op A (kernelStart m op A inp) = none) :
    kernel m op A inp junk n = handler m op A inp (fun _ => A.const 0) junk n ↔
      ∀ vars, CStmt.runAll A junk n (bodyText m op) (handlerStart m op A inp fun _ => A.const 0) = some vars →
        ∀ so ∈ op.stackOut, Forwarded m op inp vars so := by
  have hsame : ∀ x ∈ (handlerParams op ++ handlerOuts op) ++ [],
      handlerStart m op A inp (fun _ => A.const 0) x = kernelStart m op A inp x :=
    fun x hx => h.handlerStart_eq inp (by rwa [List.append_nil] at hx)
  have hrun := CStmt.runAll_sameOn junk n (bodyText m op) (bodyCompiles_body h.handlerBody) hsame
  rw [List.append_nil] at hrun
  unfold kernel handler
  rw [h.firedGuard_eq, hfired]
  simp only
  rcases hk : CStmt.runAll A junk n (bodyText m op) (kernelStart m op A inp) with _ | vars'
  · rcases hh : CStmt.runAll A junk n (bodyText m op) (handlerStart m op A inp fun _ => A.const 0) with _ | vars
    · simp
    · rw [hk, hh] at hrun
      exact hrun.elim
  · rcases hh : CStmt.runAll A junk n (bodyText m op) (handlerStart m op A inp fun _ => A.const 0) with _ | vars
    · rw [hk, hh] at hrun
      exact hrun.elim
    · rw [hk, hh] at hrun
      have hiff := fun so (hso : so ∈ op.stackOut) => h.pushed_eq_iff hso hk hrun
      simp only [Option.map_some, Option.some_inj, Result.done.injEq, List.map_inj_left]
      constructor
      · rintro heq w rfl so hso
        exact (hiff so hso).1 (heq so hso)
      · intro hall so hso
        exact (hiff so hso).2 (hall vars rfl so hso)

end

/-! ## Agreement -/

section

variable (A m op) (inp : Inputs A)

/-- The kernel returns the code of the guard that fires first, and else what the handler pushes, whatever the variables
hold that are declared without a value. -/
def Agrees : Prop :=
  ∀ held junk junk' n, kernel m op A inp junk' n = handler m op A inp held junk n

/-- What is held by variables declared without a value does not show in what the handler pushes. -/
def Definite : Prop :=
  ∀ held held' junk junk' n, handler m op A inp held junk n = handler m op A inp held' junk' n

/-- Every output is pushed, and one forwarded under a name of its own forwards what that name holds: a parameter, or 0. -/
def Forwards : Prop :=
  ∀ junk n vars, CStmt.runAll A junk n (bodyText m op) (handlerStart m op A inp fun _ => A.const 0) = some vars →
    ∀ so ∈ op.stackOut, Forwarded m op inp vars so

end

/-- `type i32 s4 u4 1 i` and the opcodes of a test. -/
def i32Spec (opcodes : List Opcode) : Spec := { types := [⟨.i32, ⟨.s4, .u4, 1, 'i'⟩⟩], opcodes }

def i32Param (name : String) (semExpr : Option String) : StackParam := ⟨.i32, name, semExpr, none, none⟩

/-- `idiv (i32 a, i32 b -- i32 r)` with the guard `b == 0` and the body `r = a / b;`. -/
def idiv : Opcode where
  mnemonic := "idiv"
  operands := []
  stackIn := [i32Param "a" none, i32Param "b" none]
  stackOut := [i32Param "r" none]
  errors := [⟨some (.binOp "==" (.ident "b") (.int 0)), "DivByZero"⟩]
  semBody := [.assign (.ident "r") (.binOp "/" (.ident "a") (.ident "b"))]

theorem idiv_generated : Generated (i32Spec [idiv]) idiv where
  closed := by decide +kernel
  handlerOk := by decide +kernel
  kernelOk := by decide +kernel
  inputs := by decide +kernel
  outputs := fun so hso _ => by
    obtain rfl := List.mem_singleton.1 hso
    decide +kernel
  memargs := fun _ hod => nomatch hod
  own := by decide +kernel

/-- `tee (i32 a -- i32 r, i32 c = "a")` with the body `r = a + 1;`. -/
def tee : Opcode where
  mnemonic := "tee"
  operands := []
  stackIn := [i32Param "a" none]
  stackOut := [i32Param "r" none, i32Param "c" (some "\"a\"")]
  errors := []
  semBody := [.assign (.ident "r") (.binOp "+" (.ident "a") (.int 1))]

end Bbq.Opgen
