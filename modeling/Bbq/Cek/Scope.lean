import Bbq.Cek.Machine

/-!
# What a kont expects around it

Every kont the compiler emits runs inside some scopes of its rule: arms, optionals, arrays,
intervals, structs. `Typed strict Γ n k` says that `k` closes the scopes of `Γ` (innermost first) in
order before its rule returns, and that its static failure edges are the ones of `Γ`; `n` is the
number of bytes known to be left in the window, which only `AdvancePos` needs.

A struct may mark several fields `@rest`. `compile_fields` opens a window for each and closes one:
the others are never closed. Under `strict` there are none (`restOnce`).

* **`compile_typed`**: what the compiler emits for a construct is typed in the scopes it stands in.
* `compileRule_typed`: a rule's entry is typed in no scope.
* `bodyHead_typed`, `loopEntry_typed`: so is the element of an array, each time it is entered.
-/

namespace Bbq

/-! ## At most one `@rest` field to a struct -/

mutual

/-- No struct under the type marks two fields `@rest`. -/
def TypeExpr.restOnce : TypeExpr → Bool
  | .struct fields _ => fields.restOnce
  | .union variants => variants.restOnce
  | .array element spec _ _ _ _ => element.restOnce && spec.restOnce
  | .optional element _ _ => element.restOnce
  | .switch _ cases default => cases.restOnce && default.restOnce
  | _ => true

def Fields.restOnce : Fields → Bool
  | .nil => true
  | .cons _ body _ _ scopesRest rest =>
    body.restOnce && (!scopesRest || !rest.hasRest) && rest.restOnce

def Variants.restOnce : Variants → Bool
  | .nil => true
  | .cons _ body _ _ rest => body.restOnce && rest.restOnce

def Cases.restOnce : Cases → Bool
  | .nil => true
  | .cons _ target _ rest => target.restOnce && rest.restOnce

def SwitchDefault.restOnce : SwitchDefault → Bool
  | .absent | .reject => true
  | .target t _ => t.restOnce

def ArraySpec.restOnce : ArraySpec → Bool
  | .fixedCount _ => true
  | .sepTerm sep _ => sep.restOnce

def Separator.restOnce : Separator → Bool
  | .none => true
  | .type t => t.restOnce

end

def Grammar.restOnce (g : Grammar) : Bool := g.rules.all fun r => r.body.restOnce

namespace Cek

/-- A scope that is open at run time. -/
inductive Scope
  /-- An arm of a choice that is not the last, and the link its failure follows. -/
  | arm (link : Kont)
  /-- The last arm of a choice: the savepoint is still there, its target `exhausted`. -/
  | lastArm
  | opt (skip : Kont)
  /-- An array: its frame, and its capture scope. -/
  | loop
  /-- The savepoint of a resyncing array. -/
  | site (s : LoopSite)
  | window
  | struct

/-- `find_backtrack_target`, read off the scopes. -/
def backtrackTarget : List Scope → Option Kont
  | [] => none
  | .arm link :: _ => some link
  | .opt skip :: _ => some skip
  | .site s :: _ => some (.resync s)
  | .lastArm :: Γ | .loop :: Γ | .window :: Γ | .struct :: Γ => backtrackTarget Γ

/-- The targets of a switch. -/
def Targets.konts : Targets → List Kont
  | .nil => []
  | .cons _ _ target rest => target :: konts rest

/-- The on-false edge of a `where` in these scopes. -/
def failEdge (Γ : List Scope) : Kont := (backtrackTarget Γ).getD .abortRule

section

variable (strict : Prop)

mutual

/-- `k` is well placed in the scopes `Γ`. -/
inductive Typed : List Scope → Nat → Kont → Prop
  | halt : Typed [] 0 .halt
  | returnRule {k} : Typed [] 0 k → Typed [] 0 (.returnRule k)
  | matchPrimitive {Γ prim k} : Stores Γ 0 k → Typed Γ 0 (.matchPrimitive prim k)
  | matchBytes {Γ e s k} : Stores Γ 0 k → Typed Γ 0 (.matchBytes e s k)
  | bindCompute {Γ e k} : Stores Γ 0 k → Typed Γ 0 (.bindCompute e k)
  | externalCall {Γ f k} : Stores Γ 0 k → Typed Γ 0 (.externalCall f k)
  | extractBits {Γ n c w o s k} :
      Stores Γ (PrimitiveInfo.byteCount c) k → Typed Γ n (.extractBits c w o s k)
  | advancePos {Γ n k} : Typed Γ 0 k → Typed Γ n (.advancePos n k)
  | beginStruct {Γ nm k} : Typed (.struct :: Γ) 0 k → Typed Γ 0 (.beginStruct nm k)
  | beginVariant {Γ nm t k} : Typed (.struct :: Γ) 0 k → Typed Γ 0 (.beginVariant nm t k)
  | endStruct {Γ k} : Typed Γ 0 k → Typed (.struct :: Γ) 0 (.endStruct k)
  | seek {Γ e k} : Typed Γ 0 k → Typed Γ 0 (.seek e k)
  | pushInterval {Γ r e k} : Typed (.window :: Γ) 0 k → Typed Γ 0 (.pushInterval r e k)
  /-- A window that is never closed. -/
  | pushLeak {Γ r e k} : ¬ strict → Typed Γ 0 k → Typed Γ 0 (.pushInterval r e k)
  | popInterval {Γ c k} : Typed Γ 0 k → Typed (.window :: Γ) 0 (.popInterval c k)
  | check {Γ n e k} : Typed Γ n k → Typed Γ n (.evalConstraint e (failEdge Γ) k)
  | branch {Γ e absent k} : Typed Γ 0 absent → Typed Γ 0 k → Typed Γ 0 (.evalConstraint e absent k)
  | setEndian {Γ e k} : Typed Γ 0 k → Typed Γ 0 (.setEndian e k)
  | switchDispatch {Γ e cases default reject} :
      (∀ k ∈ Targets.konts cases, Typed Γ 0 k) → (∀ k, default = some k → Typed Γ 0 k) →
      Typed Γ 0 (.switchDispatch e cases default reject)
  | beginChoice {Γ link k} :
      Linked Γ link → Typed (.arm link :: Γ) 0 k → Typed Γ 0 (.beginChoice link k)
  | commitChoice {Γ link k} : Typed Γ 0 k → Typed (.arm link :: Γ) 0 (.commitChoice k)
  | commitLast {Γ k} : Typed Γ 0 k → Typed (.lastArm :: Γ) 0 (.commitChoice k)
  | beginOptional {Γ k inner} :
      Typed Γ 0 k → Typed (.opt (.onFail (some k) none true) :: Γ) 0 inner →
      Typed Γ 0 (.beginOptional (.onFail (some k) none true) inner)
  | endOptional {Γ skip k} : Typed Γ 0 k → Typed (.opt skip :: Γ) 0 (.endOptional k)
  | invokeRule {Γ nm k} : Typed Γ 0 k → Typed Γ 0 (.invokeRule nm (backtrackTarget Γ) k)
  | beginArray {Γ s} : Placed s Γ → Typed Γ 0 (.beginArray s)
  | arrayNext {Γ s} :
      LoopSite.resyncs s = false → Placed s Γ → Typed (.loop :: Γ) 0 (.arrayNext s)
  | arrayNextResync {Γ s} :
      LoopSite.resyncs s = true → Placed s Γ → Typed (.site s :: .loop :: Γ) 0 (.arrayNext s)
  | endArray {Γ r k} : Typed Γ 0 k → Typed (.loop :: Γ) 0 (.endArray r k)
  | endArrayResync {Γ s k} : Typed Γ 0 k → Typed (.site s :: .loop :: Γ) 0 (.endArray true k)

/-- `k` stores the carrier in `ac` and is then well placed. -/
inductive Stores : List Scope → Nat → Kont → Prop
  | capture {Γ n nm nm' k} : Typed Γ n k → Stores Γ n (.capture nm (.storeEnv nm' k))
  | storeEnv {Γ n nm k} : Typed Γ n k → Stores Γ n (.storeEnv nm k)

/-- A link of a choice that stands in `Γ`: each target is an arm. -/
inductive Linked : List Scope → Kont → Prop
  | last {Γ target} :
      Typed (.lastArm :: Γ) 0 target → Linked Γ (.onFail (some target) (some exhausted) false)
  | next {Γ target link} :
      Linked Γ link → Typed (.arm link :: Γ) 0 target →
      Linked Γ (.onFail (some target) (some link) false)

/-- An array whose own place is in `Γ`. -/
inductive Placed : LoopSite → List Scope → Prop
  | mk {Γ name element spec iv resync r k} :
      findBacktrackTarget r = backtrackTarget Γ → Typed Γ 0 k →
      (strict → TypeExpr.restOnce element = true ∧ ArraySpec.restOnce spec = true) →
      Placed (.mk name element spec iv resync r k) Γ

end

end

/-- The scopes inside an element of the array. -/
def LoopSite.scopes (s : LoopSite) : List Scope := if s.resyncs then [.site s, .loop] else [.loop]

variable {strict : Prop}

/-! ## Productions without recursion -/

section

variable {Γ : List Scope} {n : Nat} {r : Rho} {k : Kont}

theorem fieldDest_stores (name : String) (h : Typed strict Γ n k) : Stores strict Γ n (fieldDest name k) := by
  unfold fieldDest
  split
  · exact .storeEnv h
  · exact .capture h

theorem wrapWhere_typed (constraint : Option Expr) (hr : findBacktrackTarget r = backtrackTarget Γ)
    (h : Typed strict Γ n k) : Typed strict Γ n (wrapWhere constraint r k) := by
  rcases constraint with _ | e
  · exact h
  · unfold wrapWhere
    rw [hr]
    exact .check h

theorem intervalEntry_typed (iv : Interval) (h : Typed strict (.window :: Γ) 0 k) :
    Typed strict Γ 0 (intervalEntry iv k) := by
  rcases iv with ⟨start, stop⟩ | len
  · exact .seek (.pushInterval h)
  · exact .pushInterval h

theorem compilePrimitive_typed (kind : PrimitiveKind) (constraint : Option Expr)
    (interval : Option Interval) (hr : findBacktrackTarget r = backtrackTarget Γ)
    (h : Typed strict Γ 0 k) : Typed strict Γ 0 (compilePrimitive kind constraint interval r k) := by
  have hdest := fieldDest_stores (internFieldOrAnon r) (wrapWhere_typed constraint hr h)
  unfold compilePrimitive
  split
  · exact .matchBytes hdest
  · exact .matchPrimitive hdest

/-- Past its first entry a bit field knows its container is there. -/
theorem compileBitfield_typed (c : PrimitiveInfo) (hr : findBacktrackTarget r = backtrackTarget Γ)
    (h : Typed strict Γ 0 k) (offset : Nat) (es : List BitfieldEntry) :
    Typed strict Γ c.byteCount (compileBitfield c r k offset es) := by
  induction es generalizing offset with
  | nil => exact .advancePos h
  | cons e es ih =>
    exact .extractBits (fieldDest_stores e.name (wrapWhere_typed e.constraint hr (ih _)))

theorem compileBitfield_typed_cons (c : PrimitiveInfo)
    (hr : findBacktrackTarget r = backtrackTarget Γ) (h : Typed strict Γ 0 k) (e : BitfieldEntry)
    (es : List BitfieldEntry) : Typed strict Γ 0 (compileBitfield c r k 0 (e :: es)) :=
  .extractBits (fieldDest_stores e.name
    (wrapWhere_typed e.constraint hr (compileBitfield_typed c hr h _ es)))

theorem armBody_typed (body : TypeExpr) (hr : findBacktrackTarget r = backtrackTarget Γ)
    {next : Kont} (h : Typed strict Γ 0 next) (hk : Typed strict Γ 0 k) : Typed strict Γ 0 (armBody body r next k) := by
  unfold armBody
  split
  · rw [hr]
    exact .invokeRule h
  · exact hk

theorem konts_rangeTargets (ordinal : Nat) (rest : Targets) {target : Kont} (P : Kont → Prop)
    (ht : P target) (hrest : ∀ k ∈ rest.konts, P k) (m : Nat) (v : Int64) :
    ∀ k ∈ (rangeTargets ordinal target rest m v).konts, P k := by
  induction m generalizing v with
  | zero => exact hrest
  | succ m ih =>
    intro k hk
    rcases List.mem_cons.1 hk with rfl | hk
    · exact ht
    · exact ih _ k hk

theorem konts_caseTargets (value : CaseValue) (ordinal : Nat) (rest : Targets) {target : Kont}
    (P : Kont → Prop) (ht : P target) (hrest : ∀ k ∈ rest.konts, P k) :
    ∀ k ∈ (caseTargets value ordinal target rest).konts, P k := by
  unfold caseTargets
  split
  · exact konts_rangeTargets ordinal rest P ht hrest _ _
  · intro k hk
    rcases List.mem_cons.1 hk with rfl | hk
    · exact ht
    · exact hrest k hk

end

/-! ## Productions -/

mutual

/-- **The compiler respects scopes**: a construct compiled where its `ρ` and the scopes agree on the
failure target, before a kont placed in these scopes, is placed there itself. -/
theorem compile_typed : ∀ (t : TypeExpr) {r : Rho} {Γ : List Scope} {k : Kont},
    (strict → t.restOnce = true) → findBacktrackTarget r = backtrackTarget Γ →
    Typed strict Γ 0 k → Typed strict Γ 0 (compile t r k)
  | .struct fields constraint, r, Γ, k, hs, hr, h => by
    have hchecked : Typed strict (.struct :: Γ) 0 (wrapWhere constraint r (.endStruct k)) :=
      wrapWhere_typed constraint hr (.endStruct h)
    refine .beginStruct (compileFields_typed fields hs hr ?_)
    split
    · exact .popInterval hchecked
    · exact hchecked
  | .union .nil, _, _, _, _, _, h => h
  | .union (.cons name body _ _ .nil), r, Γ, k, hs, hr, h => by
    have hend : Typed strict (.struct :: Γ) 0 (.endStruct k) := .endStruct h
    have hbody : strict → body.restOnce = true := fun h => by
      simpa [TypeExpr.restOnce, Variants.restOnce] using hs h
    have hr' : findBacktrackTarget r = backtrackTarget (.struct :: Γ) := hr
    exact .beginVariant (armBody_typed body hr' hend (compile_typed body hbody hr' hend))
  | .union (.cons name body _ _ (.cons name' body' c' iv' rest)), r, Γ, k, hs, hr, h => by
    have hsplit : strict → body.restOnce = true ∧
        (Variants.cons name' body' c' iv' rest).restOnce = true := fun h => by
      simpa [TypeExpr.restOnce, Variants.restOnce] using hs h
    have harms := compileArms_typed (.cons name' body' c' iv' rest) (fun h => (hsplit h).2) 1 hr h
    have hend : ∀ link, Typed strict (.struct :: .arm link :: Γ) 0 (.endStruct (.commitChoice k)) :=
      fun _ => .endStruct (.commitChoice h)
    exact .beginChoice harms (.beginVariant
      (armBody_typed body rfl (hend _) (compile_typed body (fun h => (hsplit h).1) rfl (hend _))))
  | .array element spec constraint _ elementInterval resync, r, Γ, k, hs, hr, h =>
    .beginArray (.mk hr (wrapWhere_typed constraint hr h) fun h => by
      simpa [TypeExpr.restOnce] using hs h)
  | .optional element (some cond) _, r, Γ, k, hs, hr, h =>
    .branch h (compile_typed element hs hr h)
  | .optional element none _, r, Γ, k, hs, hr, h =>
    .beginOptional h (compile_typed element hs rfl (.endOptional h))
  | .switch discriminator cases default, r, Γ, k, hs, hr, h => by
    have hsplit : strict → cases.restOnce = true ∧ default.restOnce = true := fun h => by
      simpa [TypeExpr.restOnce] using hs h
    exact .switchDispatch (compileCases_typed cases (fun h => (hsplit h).1) 0 hr h)
      (compileDefault_typed default (fun h => (hsplit h).2) hr h)
  | .compute e, r, Γ, k, hs, hr, h => .bindCompute (fieldDest_stores _ h)
  | .primitive kind constraint interval, r, Γ, k, hs, hr, h =>
    compilePrimitive_typed kind constraint interval hr h
  | .ruleRef name _ _, r, Γ, k, hs, hr, h => by
    have hcall : findBacktrackTarget r = backtrackTarget (.struct :: Γ) := hr
    refine .beginStruct ?_
    rw [hcall]
    exact .invokeRule (.endStruct h)
  | .external funcName _ _, r, Γ, k, hs, hr, h => .externalCall (fieldDest_stores _ h)
  | .bitfield container first rest, r, Γ, k, hs, hr, h => by
    have hr' : findBacktrackTarget r = backtrackTarget (.struct :: Γ) := hr
    exact .beginStruct
      (compileBitfield_typed_cons (toPrimInfo container) hr' (.endStruct h) first rest)
  | .endianSwitch e, r, Γ, k, hs, hr, h => .setEndian h

/-- The fields of a struct, `tail` standing in the window a `@rest` field opens if there is one. -/
theorem compileFields_typed : ∀ (fs : Fields) {r : Rho} {Γ : List Scope} {tail : Kont},
    (strict → fs.restOnce = true) → findBacktrackTarget r = backtrackTarget Γ →
    Typed strict (if fs.hasRest then .window :: Γ else Γ) 0 tail →
    Typed strict Γ 0 (compileFields fs r tail)
  | .nil, _, _, _, _, _, h => h
  | .cons name body c interval scopesRest rest, r, Γ, tail, hs, hr, h => by
    have hsplit : strict → (body.restOnce = true ∧ (scopesRest = false ∨ rest.hasRest = false)) ∧
        rest.restOnce = true := fun h => by
      simpa [Fields.restOnce] using hs h
    have hbody : strict → body.restOnce = true := fun h => (hsplit h).1.1
    have hrest : strict → rest.restOnce = true := fun h => (hsplit h).2
    have hfield : findBacktrackTarget (inField name r) = backtrackTarget Γ := hr
    unfold compileFields
    by_cases hmark : scopesRest = true
    · subst hmark
      simp only [if_true]
      refine compile_typed body hbody hfield ?_
      by_cases hmore : rest.hasRest = true
      · -- the window of this field is one too many
        refine .pushLeak (fun hst => ?_) (compileFields_typed rest hrest hr ?_)
        · simpa [hmore] using (hsplit hst).1.2
        · simpa [Fields.hasRest, hmore] using h
      · refine .pushInterval (compileFields_typed rest hrest hr ?_)
        simpa [Fields.hasRest, hmore] using h
    · have hchain : Typed strict Γ 0 (compileFields rest r tail) :=
        compileFields_typed rest hrest hr (by simpa [Fields.hasRest, hmark] using h)
      simp only [hmark]
      rcases hiv : fieldInterval interval body with _ | iv
      · exact compile_typed body hbody hfield hchain
      · exact intervalEntry_typed iv (compile_typed body hbody hfield (.popInterval hchain))

/-- The link that leads to the first of the arms. -/
theorem compileArms_typed : ∀ (vs : Variants) {r : Rho} {Γ : List Scope} {k : Kont},
    (strict → vs.restOnce = true) → (i : Nat) → findBacktrackTarget r = backtrackTarget Γ →
    Typed strict Γ 0 k →
    Linked strict Γ (.onFail (some (compileArms vs i r (.commitChoice k)).1)
      (some (compileArms vs i r (.commitChoice k)).2) false)
  | .nil, _, _, _, _, _, _, h => .last (.commitLast h)
  | .cons name body _ _ .nil, r, Γ, k, hs, i, hr, h => by
    have hbody : strict → body.restOnce = true := fun h => by
      simpa [Variants.restOnce] using hs h
    have hend : Typed strict (.struct :: .lastArm :: Γ) 0 (.endStruct (.commitChoice k)) :=
      .endStruct (.commitLast h)
    have hr' : findBacktrackTarget r = backtrackTarget (.struct :: .lastArm :: Γ) := hr
    exact .last (.beginVariant (armBody_typed body hr' hend (compile_typed body hbody hr' hend)))
  | .cons name body _ _ (.cons name' body' c' iv' rest), r, Γ, k, hs, i, hr, h => by
    have hsplit : strict → body.restOnce = true ∧
        (Variants.cons name' body' c' iv' rest).restOnce = true := fun h => by
      simpa [Variants.restOnce] using hs h
    have hmore :=
      compileArms_typed (.cons name' body' c' iv' rest) (fun h => (hsplit h).2) (i + 1) hr h
    have hend : ∀ link, Typed strict (.struct :: .arm link :: Γ) 0 (.endStruct (.commitChoice k)) :=
      fun _ => .endStruct (.commitChoice h)
    exact .next hmore (.beginVariant
      (armBody_typed body rfl (hend _) (compile_typed body (fun h => (hsplit h).1) rfl (hend _))))

theorem compileCases_typed : ∀ (cs : Cases) {r : Rho} {Γ : List Scope} {k : Kont},
    (strict → cs.restOnce = true) → (i : Nat) → findBacktrackTarget r = backtrackTarget Γ →
    Typed strict Γ 0 k → ∀ k' ∈ (compileCases cs i r k).konts, Typed strict Γ 0 k'
  | .nil, _, _, _, _, _, _, _ => by simp [compileCases, Targets.konts]
  | .cons value target _ rest, r, Γ, k, hs, i, hr, h => by
    have hsplit : strict → target.restOnce = true ∧ rest.restOnce = true := fun h => by
      simpa [Cases.restOnce] using hs h
    exact konts_caseTargets value i _ _ (compile_typed target (fun h => (hsplit h).1) hr h)
      (compileCases_typed rest (fun h => (hsplit h).2) (i + 1) hr h)

theorem compileDefault_typed : ∀ (d : SwitchDefault) {r : Rho} {Γ : List Scope} {k : Kont},
    (strict → d.restOnce = true) → findBacktrackTarget r = backtrackTarget Γ →
    Typed strict Γ 0 k → ∀ k', compileDefault d r k = some k' → Typed strict Γ 0 k'
  | .absent, _, _, _, _, _, _ => by simp [compileDefault]
  | .reject, _, _, _, _, _, _ => by simp [compileDefault]
  | .target t _, r, Γ, k, hs, hr, h => by
    rintro k' hk'
    obtain rfl := Option.some.inj hk'
    exact compile_typed t hs hr h

end

/-! ## Elements and rules -/

section

variable {s : LoopSite} {Γ : List Scope}

theorem LoopSite.backtrackTarget_scopes (h : Placed strict s Γ) :
    findBacktrackTarget s.elemRho = backtrackTarget (s.scopes ++ Γ) := by
  cases h with
  | @mk _ name element spec iv resync r k hr hk hs =>
    cases resync
    · exact hr
    · rfl

theorem LoopSite.arrayNext_typed (h : Placed strict s Γ) :
    Typed strict (s.scopes ++ Γ) 0 (.arrayNext s) := by
  rcases hres : s.resyncs with _ | _
  · simpa [LoopSite.scopes, hres] using Typed.arrayNext hres h
  · simpa [LoopSite.scopes, hres] using Typed.arrayNextResync hres h

/-- The element of an array is placed in the array's scopes, each time it is compiled. -/
theorem bodyHead_typed (h : Placed strict s Γ) : Typed strict (s.scopes ++ Γ) 0 s.bodyHead := by
  have hr := LoopSite.backtrackTarget_scopes h
  have hnext := LoopSite.arrayNext_typed h
  cases h with
  | @mk _ name element spec iv resync r k _ _ hs =>
    have hel : strict → element.restOnce = true := fun h => (hs h).1
    rcases iv with _ | iv
    · exact compile_typed element hel hr hnext
    · exact intervalEntry_typed iv (compile_typed element hel hr (.popInterval hnext))

/-- And so is the separator before it. -/
theorem loopEntry_typed (h : Placed strict s Γ) : Typed strict (s.scopes ++ Γ) 0 s.loopEntry := by
  have hbody := bodyHead_typed h
  have hr := LoopSite.backtrackTarget_scopes h
  cases h with
  | @mk _ name element spec iv resync r k _ _ hs =>
    rcases spec with e | ⟨sep, term⟩
    · exact hbody
    · rcases sep with _ | t
      · exact hbody
      · have ht : strict → t.restOnce = true := fun h => by
          simpa [ArraySpec.restOnce, Separator.restOnce] using (hs h).2
        exact compile_typed t ht hr hbody

theorem LoopSite.next_typed (h : Placed strict s Γ) : Typed strict Γ 0 s.next := by
  cases h with
  | mk _ hk _ => exact hk

/-- The end of an array closes its scopes, whether or not its savepoint is still there. -/
theorem LoopSite.endNode_typed (h : Placed strict s Γ) :
    Typed strict (s.scopes ++ Γ) 0 s.endNode ∧ Typed strict (.loop :: Γ) 0 s.endNode := by
  have hnext := LoopSite.next_typed h
  refine ⟨?_, .endArray hnext⟩
  unfold LoopSite.scopes LoopSite.endNode
  split
  · rename_i hres
    rw [hres]
    exact .endArrayResync hnext
  · exact .endArray hnext

end

theorem ruleExit_typed : Typed strict [] 0 ruleExit := .returnRule .halt

/-- A rule's entry stands in no scope. -/
theorem compileRule_typed (t : TypeExpr) (hs : strict → t.restOnce = true) :
    Typed strict [] 0 (compileRule t) := by
  unfold compileRule
  split
  · rename_i fields constraint
    have hchecked : Typed strict [] 0 (wrapWhere constraint .root ruleExit) :=
      wrapWhere_typed constraint rfl ruleExit_typed
    refine compileFields_typed fields hs rfl ?_
    split
    · exact .popInterval hchecked
    · exact hchecked
  · exact compileBitfield_typed_cons _ rfl ruleExit_typed _ _
  · exact compile_typed _ hs rfl ruleExit_typed

/-- So is every entry of a program. -/
theorem Program.entry_typed {p : Program} (hs : strict → p.grammar.restOnce = true) {name : String}
    {k : Kont} (h : p.entry name = some k) : Typed strict [] 0 k := by
  obtain ⟨rule, hfind, rfl⟩ := Option.map_eq_some_iff.1 h
  refine compileRule_typed rule.body fun hst => ?_
  have hall := hs hst
  simp only [Grammar.restOnce, List.all_eq_true] at hall
  exact hall rule (List.mem_of_find?_eq_some hfind)

end Cek

end Bbq
