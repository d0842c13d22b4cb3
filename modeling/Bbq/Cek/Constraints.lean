import Bbq.Cek.Ordered

/-!
# Constraints in the generated readers

A `where` and the predicate of an optional compile to one kind of kont, `EvalConstraint`. The lowering to the generated
readers tells them apart by the kont of their false edge (`backends/render/bbq.burg:188-232`); the machine goes to that
kont (`backends/cek/Machine.cpp:990-1008`).

* `sites`: the constraints of a grammar, as `compile` reaches them, and whether a reader has code for them. A reader runs
  the arms of a choice by the names of their rules: it has none for any other arm.
* `ReaderOp`: what an `EvalConstraint` is lowered to.
* `Lowered`: reader and machine do the same, the condition holding or not, in any calls of rules.
* **`lowered_iff`**: they do exactly in a `Plain` grammar. `resync_skips`: not in every one.
-/

namespace Bbq.Cek

/-! ## Sites -/

/-- An evaluated constraint: a `where`, after which `next` follows, or the predicate of an optional. -/
inductive Site
  | check (cond : Expr) (r : Rho) (next : Kont)
  | predicate (cond : Expr) (element : TypeExpr) (r : Rho) (next : Kont)

/-- The sites of a `where`. -/
def checkSites (constraint : Option Expr) (r : Rho) (next : Kont) : List Site :=
  match constraint with
  | none => []
  | some cond => [.check cond r next]

/-- The `where`s of the entries of a bit field. -/
def entrySites (container : PrimitiveInfo) (r : Rho) (next : Kont) : (offset : Nat) → List BitfieldEntry → List Site
  | _, [] => []
  | offset, e :: es =>
    checkSites e.constraint r (compileBitfield container r next (offset + e.width) es) ++
      entrySites container r next (offset + e.width) es

mutual

/-- The sites of what `compile` is called with, each with whether a reader has code for it, which `emitted` says of what
is around. -/
def sites : TypeExpr → Rho → Kont → (emitted : Bool) → List (Site × Bool)
  | .struct fields constraint, r, next, emitted =>
    (checkSites constraint r (.endStruct next)).map (·, emitted) ++
      fieldSites fields r (fieldsTail fields constraint r (.endStruct next)) emitted
  | .union variants, r, next, emitted =>
    match variants with
    | .nil => []
    | .cons _ body _ _ .nil => sites body r (.endStruct next) emitted
    | .cons name body constraint iv rest =>
      armSites (.cons name body constraint iv rest) 0 r (.commitChoice next)
  | .array element spec constraint _ elementInterval resync, r, next, emitted =>
    let site := LoopSite.mk (internFieldOrAnon r) element spec elementInterval resync r (wrapWhere constraint r next)
    (checkSites constraint r next).map (·, emitted) ++
      sites element site.elemRho (elementTail site elementInterval) emitted ++
      separatorSites spec site.elemRho site.bodyHead emitted
  | .optional element constraint _, r, next, emitted =>
    match constraint with
    | some cond => (.predicate cond element r next, emitted) :: sites element r next emitted
    | none => sites element (.inOptional (.onFail (some next) none true) r) (.endOptional next) emitted
  | .switch _ cases default, r, next, emitted => caseSites cases r next emitted ++ defaultSites default r next emitted
  | .primitive _ constraint _, r, next, emitted => (checkSites constraint r next).map (·, emitted)
  | .bitfield container first rest, r, next, emitted =>
    (entrySites (toPrimInfo container) r (.endStruct next) 0 (first :: rest)).map (·, emitted)
  | _, _, _, _ => []

def fieldSites : Fields → Rho → (tail : Kont) → (emitted : Bool) → List (Site × Bool)
  | .nil, _, _, _ => []
  | .cons name body _ interval scopesRest rest, r, tail, emitted =>
    sites body (inField name r) (fieldTail interval body name scopesRest (compileFields rest r tail)) emitted ++
      fieldSites rest r tail emitted

/-- No reader has code for what stands in an arm itself. -/
def armSites : Variants → (i : Nat) → Rho → (commit : Kont) → List (Site × Bool)
  | .nil, _, _, _ => []
  | .cons _ body _ _ .nil, _, r, commit => sites body r (.endStruct commit) false
  | .cons name body constraint iv rest, i, r, commit =>
    sites body (.inAlt (compileArms (.cons name body constraint iv rest) i r commit).2 r) (.endStruct commit) false ++
      armSites rest (i + 1) r commit

def separatorSites : ArraySpec → Rho → (body : Kont) → (emitted : Bool) → List (Site × Bool)
  | .sepTerm (.type t) _, r, body, emitted => sites t (inField "_" r) body emitted
  | _, _, _, _ => []

def caseSites : Cases → Rho → Kont → (emitted : Bool) → List (Site × Bool)
  | .nil, _, _, _ => []
  | .cons _ target _ rest, r, next, emitted => sites target r next emitted ++ caseSites rest r next emitted

def defaultSites : SwitchDefault → Rho → Kont → (emitted : Bool) → List (Site × Bool)
  | .target t _, r, next, emitted => sites t r next emitted
  | _, _, _, _ => []

end

/-- The sites of a rule, a struct or a bit field at its top being inlined. -/
def ruleSites : TypeExpr → List (Site × Bool)
  | .struct fields constraint =>
    (checkSites constraint .root ruleExit).map (·, true) ++
      fieldSites fields .root (fieldsTail fields constraint .root ruleExit) true
  | .bitfield container first rest =>
    (entrySites (toPrimInfo container) .root ruleExit 0 (first :: rest)).map (·, true)
  | t => sites t .root ruleExit true

def grammarSites (g : Grammar) : List (Site × Bool) := g.rules.flatMap fun rule => ruleSites rule.body

/-! ## What control does -/

/-- What comes of a constraint, the condition known. -/
inductive Move
  | fails
  /-- A scalar is read and stored under the name, and `next` follows. -/
  | reads (prim : PrimitiveInfo) (name : Option String) (next : Kont)
  | goes (next : Kont)

namespace Kont

/-- The name of a `CaptureKont` or a `StoreEnvKont`. -/
def storeName : Kont → Option String
  | .capture name _ | .storeEnv name _ => name
  | _ => none

/-- What follows a value's capture and binding. -/
def afterStore : Kont → Kont
  | .capture _ (.storeEnv _ next) | .storeEnv _ next => next
  | next => next

def move : Kont → Move
  | .matchPrimitive prim rest => .reads prim rest.storeName rest.afterStore
  | next => .goes next

end Kont

/-! ## The readers -/

/-- The stencils of an `EvalConstraint`. -/
inductive ReaderOp
  | constraint (cond : Expr) (next : Kont)
  | optionalPrim (cond : Expr) (prim : PrimitiveInfo) (target : Option String) (next : Kont)
  | optional (cond : Expr) (present absent : Kont)

/-- The kont of the false edge is `AbortRule` or `OnFail`. -/
def hard : Kont → Bool
  | .abortRule | .onFail _ _ _ => true
  | _ => false

/-- The rule for `EvalConstraintNode`. -/
def lowerConstraint (cond : Expr) (onFalse onTrue : Kont) : ReaderOp :=
  if hard onFalse then .constraint cond onTrue
  else match onTrue with
    | .matchPrimitive prim rest => .optionalPrim cond prim rest.storeName onFalse
    | onTrue => .optional cond onTrue onFalse

/-- What a stencil does. A constraint that does not hold is `return bbq_fail(…)`. -/
def ReaderOp.move (holds : Bool) : ReaderOp → Move
  | .constraint _ next => if holds then next.move else .fails
  | .optionalPrim _ prim target next => if holds then .reads prim target next else next.move
  | .optional _ present absent => if holds then present.move else absent.move

/-- Who takes over when code that stands under `r` returns false, within its rule: the choice tries its next arm, the
optional is skipped, the array goes on a byte later. Everything else is called in tail position. -/
def readerHandler : Rho → Option Kont
  | .root => none
  | .inField _ p => readerHandler p
  | .inAlt link _ => some link
  | .inOptional skip _ => some skip
  | .inArrayElem (some resync) _ => some resync
  | .inArrayElem none p => readerHandler p

/-! ## The machine -/

/-- The targets that the open calls of rules carry, innermost first. -/
def returnTargets : List Frame → List (Option Kont)
  | [] => []
  | .return rf :: fs => rf.ruleFailTarget :: returnTargets fs
  | _ :: fs => returnTargets fs

/-- The frames at a constraint under `r`, in a rule that was called under `calls`, innermost first: the calls are open, and
there is a savepoint only where there is a handler. -/
structure Opened (frames : List Frame) (r : Rho) (calls : List Rho) : Prop where
  returns : returnTargets frames = calls.map findBacktrackTarget
  savepoints : (r :: calls).findSome? findBacktrackTarget = none → unwind frames = none

/-- Where `AbortRuleKont` leads. -/
def abortsTo (frames : List Frame) : Option Kont :=
  match abortTarget frames with
  | some (target, _) => some target
  | none => (unwind frames).map (·.1)

/-- What a constraint comes to: control goes on, or it fails to a handler, if there is one. -/
inductive EdgeOutcome
  | moves (m : Move)
  | failsTo (handler : Option Kont)

def ReaderOp.outcome (op : ReaderOp) (holds : Bool) (r : Rho) (calls : List Rho) : EdgeOutcome :=
  match op.move holds with
  | .fails => .failsTo ((r :: calls).findSome? readerHandler)
  | m => .moves m

/-- `EvalConstraintCheckKont` pushes one of its edges. -/
def machineOutcome (onFalse onTrue : Kont) (holds : Bool) (frames : List Frame) : EdgeOutcome :=
  if holds then .moves onTrue.move
  else match onFalse with
    | .abortRule => .failsTo (abortsTo frames)
    | k => if k.recovers then .failsTo (some k) else .moves k.move

/-! ## Agreement -/

namespace Site

def cond : Site → Expr
  | check cond _ _ | predicate cond _ _ _ => cond

def rho : Site → Rho
  | check _ r _ | predicate _ _ r _ => r

def onFalse : Site → Kont
  | check _ r _ => (findBacktrackTarget r).getD .abortRule
  | predicate _ _ _ next => next

def onTrue : Site → Kont
  | check _ _ next => next
  | predicate _ element r next => compile element r next

/-- The kont of the constraint. -/
def node (s : Site) : Kont := .evalConstraint s.cond s.onFalse s.onTrue

def op (s : Site) : ReaderOp := lowerConstraint s.cond s.onFalse s.onTrue

end Site

/-- **Readers and machine agree on the constraints**: a reader has the code, and goes on where the machine goes on, or
fails to the handler that the machine fails to. -/
structure Lowered (g : Grammar) : Prop where
  emitted : ∀ s e, (s, e) ∈ grammarSites g → e = true
  agrees : ∀ s e, (s, e) ∈ grammarSites g → ∀ frames calls, Opened frames s.rho calls → ∀ holds,
    s.op.outcome holds s.rho calls = machineOutcome s.onFalse s.onTrue holds frames

/-! ## Plain grammars -/

/-- A scalar with a `where`. -/
def checkedScalar : TypeExpr → Bool
  | .primitive kind (some _) _ => kind != .bytes && kind != .string
  | _ => false

/-- A `where` does not fail to the handler of a resynchronizing array. The element of a predicated optional is no scalar
with a `where`, and no union without arms in front of a scalar. -/
def Site.plain : Site → Prop
  | .check _ r _ => ∀ site, findBacktrackTarget r ≠ some (.resync site)
  | .predicate _ element _ next =>
    checkedScalar element = false ∧ (element = .union .nil → ∀ prim rest, next ≠ .matchPrimitive prim rest)

/-- Every constraint is plain and stands in no arm of a choice, those of the rules it names aside. -/
structure Plain (g : Grammar) : Prop where
  placed : ∀ s e, (s, e) ∈ grammarSites g → e = true
  plain : ∀ s e, (s, e) ∈ grammarSites g → s.plain

/-! ## What the sites have -/

/-- A link of a choice or an optional, or the handler of a resynchronizing array. -/
def Kont.links : Kont → Bool
  | .onFail _ _ _ | .resync _ => true
  | _ => false

/-- The handler around a construct is a link. -/
def HandledBy (r : Rho) : Prop := ∀ t, findBacktrackTarget r = some t → t.links = true

namespace HandledBy

variable {r : Rho}

theorem root : HandledBy .root := fun _ h => nomatch h

theorem inField (h : HandledBy r) (name : String) : HandledBy (Cek.inField name r) := h

theorem inAlt {t : Kont} (ht : t.links = true) : HandledBy (.inAlt t r) := fun _ h => by
  cases h
  exact ht

theorem inOptional {t : Kont} (ht : t.links = true) : HandledBy (.inOptional t r) := fun _ h => by
  cases h
  exact ht

theorem elemRho {s : LoopSite} (h : HandledBy s.rho) : HandledBy s.elemRho := by
  unfold LoopSite.elemRho LoopSite.resyncTarget
  split
  · intro t ht
    cases ht
    rfl
  · exact h

end HandledBy

theorem compileArms_links (vs : Variants) (i : Nat) (r : Rho) (commit : Kont) :
    (compileArms vs i r commit).2.links = true := by
  rcases vs with _ | ⟨name, body, constraint, interval, _ | _⟩ <;> rfl

/-- The handler around the site is a link, and what follows it recovers from nothing. -/
def Site.Sited : Site → Prop
  | .check _ r next | .predicate _ _ r next => HandledBy r ∧ next.recovers = false

theorem checkSites_sited {constraint : Option Expr} {r : Rho} {next : Kont} (hr : HandledBy r) (hnext : next.recovers = false) :
    ∀ s ∈ checkSites constraint r next, s.Sited := by
  cases constraint with
  | none => exact fun _ h => nomatch h
  | some cond =>
    intro s hs
    rw [List.mem_singleton.1 hs]
    exact ⟨hr, hnext⟩

theorem entrySites_sited {container : PrimitiveInfo} {r : Rho} {next : Kont} {offset : Nat} {es : List BitfieldEntry}
    (hr : HandledBy r) : ∀ s ∈ entrySites container r next offset es, s.Sited := by
  induction es generalizing offset with
  | nil => exact fun _ h => nomatch h
  | cons e es ih =>
    intro s hs
    rcases List.mem_append.1 hs with hs | hs
    · exact checkSites_sited hr (compileBitfield_recovers ..) s hs
    · exact ih s hs

/-- A list of sites that are all sited. -/
abbrev AllSited (l : List (Site × Bool)) : Prop := ∀ x ∈ l, x.1.Sited

theorem allSited_map {l : List Site} {emitted : Bool} (h : ∀ s ∈ l, s.Sited) : AllSited (l.map (·, emitted)) := by
  intro x hx
  obtain ⟨s, hs, rfl⟩ := List.mem_map.1 hx
  exact h s hs

theorem allSited_append {l l' : List (Site × Bool)} (h : AllSited l) (h' : AllSited l') : AllSited (l ++ l') := by
  intro x hx
  rcases List.mem_append.1 hx with hx | hx
  · exact h x hx
  · exact h' x hx

theorem allSited_nil : AllSited [] := fun _ h => nomatch h

mutual

theorem sites_sited (t : TypeExpr) {r : Rho} {next : Kont} {emitted : Bool} (hr : HandledBy r) (hnext : next.recovers = false) :
    AllSited (sites t r next emitted) :=
  match t with
  | .struct fields constraint =>
    allSited_append (allSited_map (checkSites_sited hr rfl)) (fieldSites_sited fields hr (fieldsTail_recovers rfl))
  | .union .nil => allSited_nil
  | .union (.cons _ body _ _ .nil) => sites_sited body hr rfl
  | .union (.cons name body constraint iv (.cons name' body' constraint' iv' rest)) =>
    armSites_sited (.cons name body constraint iv (.cons name' body' constraint' iv' rest)) hr
  | .array element spec constraint _ elementInterval resync =>
    have hsite : HandledBy (LoopSite.mk (internFieldOrAnon r) element spec elementInterval resync r
        (wrapWhere constraint r next)).elemRho := HandledBy.elemRho hr
    allSited_append (allSited_append (allSited_map (checkSites_sited hr hnext))
      (sites_sited element hsite (elementTail_recovers _ _)))
      (separatorSites_sited spec hsite (LoopSite.bodyHead_recovers _))
  | .optional element (some cond) _ => by
    intro x hx
    rcases List.mem_cons.1 hx with rfl | hx
    · exact ⟨hr, hnext⟩
    · exact sites_sited element hr hnext x hx
  | .optional element none _ => sites_sited element (.inOptional rfl) rfl
  | .switch _ cases default => allSited_append (caseSites_sited cases hr hnext) (defaultSites_sited default hr hnext)
  | .primitive _ constraint _ => allSited_map (checkSites_sited hr hnext)
  | .bitfield container first rest => allSited_map (entrySites_sited hr)
  | .compute _ | .ruleRef _ _ _ | .external _ _ _ | .endianSwitch _ => allSited_nil

theorem fieldSites_sited (fs : Fields) {r : Rho} {tail : Kont} {emitted : Bool} (hr : HandledBy r)
    (htail : tail.recovers = false) : AllSited (fieldSites fs r tail emitted) :=
  match fs with
  | .nil => allSited_nil
  | .cons name body _ _ _ rest =>
    allSited_append (sites_sited body (hr.inField name) (fieldTail_recovers (compileFields_recovers rest r htail)))
      (fieldSites_sited rest hr htail)

theorem armSites_sited (vs : Variants) {i : Nat} {r : Rho} {commit : Kont} (hr : HandledBy r) :
    AllSited (armSites vs i r commit) :=
  match vs with
  | .nil => allSited_nil
  | .cons _ body _ _ .nil => sites_sited body hr rfl
  | .cons _ body _ _ (.cons name' body' constraint' iv' rest) =>
    allSited_append (sites_sited body (.inAlt (compileArms_links ..)) rfl)
      (armSites_sited (.cons name' body' constraint' iv' rest) hr)

theorem separatorSites_sited (spec : ArraySpec) {r : Rho} {body : Kont} {emitted : Bool} (hr : HandledBy r)
    (hbody : body.recovers = false) : AllSited (separatorSites spec r body emitted) :=
  match spec with
  | .sepTerm (.type t) _ => sites_sited t (hr.inField "_") hbody
  | .sepTerm .none _ | .fixedCount _ => allSited_nil

theorem caseSites_sited (cases : Cases) {r : Rho} {next : Kont} {emitted : Bool} (hr : HandledBy r)
    (hnext : next.recovers = false) : AllSited (caseSites cases r next emitted) :=
  match cases with
  | .nil => allSited_nil
  | .cons _ target _ rest => allSited_append (sites_sited target hr hnext) (caseSites_sited rest hr hnext)

theorem defaultSites_sited (default : SwitchDefault) {r : Rho} {next : Kont} {emitted : Bool} (hr : HandledBy r)
    (hnext : next.recovers = false) : AllSited (defaultSites default r next emitted) :=
  match default with
  | .absent | .reject => allSited_nil
  | .target t _ => sites_sited t hr hnext

end

theorem ruleSites_sited (t : TypeExpr) : AllSited (ruleSites t) := by
  unfold ruleSites
  split
  · exact allSited_append (allSited_map (checkSites_sited .root rfl)) (fieldSites_sited _ .root (fieldsTail_recovers rfl))
  · exact allSited_map (entrySites_sited .root)
  · exact sites_sited _ .root rfl

theorem grammarSites_sited (g : Grammar) : AllSited (grammarSites g) := by
  intro x hx
  obtain ⟨rule, _, hx⟩ := List.mem_flatMap.1 hx
  exact ruleSites_sited rule.body x hx

/-! ## What the two do -/

theorem readerHandler_eq (r : Rho) : readerHandler r = findBacktrackTarget r := by
  match r with
  | .root | .inAlt _ _ | .inOptional _ _ | .inArrayElem (some _) _ => rfl
  | .inField _ p => exact readerHandler_eq p
  | .inArrayElem none p => exact readerHandler_eq p

theorem abortTarget_eq (frames : List Frame) :
    (abortTarget frames).map (·.1) = (returnTargets frames).findSome? id := by
  induction frames with
  | nil => rfl
  | cons f fs ih =>
    rcases f with ⟨⟨_, _, _, _, target⟩⟩ | _ | _
    · cases target with
      | none => exact ih
      | some target => rfl
    · exact ih
    · exact ih

/-- `AbortRuleKont` leads to the handler of the innermost call that has one. -/
theorem Opened.abortsTo {frames : List Frame} {r : Rho} {calls : List Rho} (h : Opened frames r calls)
    (hr : findBacktrackTarget r = none) : abortsTo frames = (r :: calls).findSome? findBacktrackTarget := by
  have htarget : (abortTarget frames).map (·.1) = (r :: calls).findSome? findBacktrackTarget := by
    rw [abortTarget_eq, h.returns, List.findSome?_map, List.findSome?_cons, hr]
    rfl
  unfold Cek.abortsTo
  cases hat : abortTarget frames with
  | some x =>
    rw [hat] at htarget
    exact htarget
  | none =>
    rw [hat] at htarget
    rw [h.savepoints htarget.symm]
    exact htarget

theorem Kont.move_ne_fails (k : Kont) : k.move ≠ .fails := by
  cases k <;> nofun

theorem ReaderOp.outcome_moves {op : ReaderOp} {holds : Bool} {r : Rho} {calls : List Rho} {k : Kont} :
    op.outcome holds r calls = .moves k.move ↔ op.move holds = k.move := by
  have hk := k.move_ne_fails
  unfold ReaderOp.outcome
  cases op.move holds with
  | fails => exact iff_of_false nofun fun h => hk h.symm
  | reads _ _ _ | goes _ => exact EdgeOutcome.moves.injEq .. ▸ Iff.rfl

/-- A constraint that is lowered to a failure. -/
theorem outcome_hard {cond : Expr} {onFalse onTrue : Kont} (h : hard onFalse = true) (holds : Bool) (r : Rho)
    (calls : List Rho) : (lowerConstraint cond onFalse onTrue).outcome holds r calls =
      if holds then .moves onTrue.move else .failsTo ((r :: calls).findSome? findBacktrackTarget) := by
  unfold lowerConstraint
  rw [if_pos h]
  cases holds with
  | true => exact ReaderOp.outcome_moves.2 rfl
  | false =>
    rw [← funext readerHandler_eq]
    rfl

/-- A constraint that is lowered to a branch goes on at its false edge. -/
theorem outcome_soft {cond : Expr} {onFalse onTrue : Kont} (h : hard onFalse = false) (r : Rho) (calls : List Rho) :
    (lowerConstraint cond onFalse onTrue).outcome false r calls = .moves onFalse.move := by
  unfold lowerConstraint
  rw [if_neg (Bool.eq_false_iff.1 h)]
  split <;> exact ReaderOp.outcome_moves.2 rfl

theorem afterStore_fieldDest (name : String) {tail : Kont} : (fieldDest name tail).afterStore = tail := by
  unfold fieldDest
  split <;> rfl

/-! ## When the lowering is right -/

section

variable {frames : List Frame} {calls : List Rho}

theorem machineOutcome_links {onFalse onTrue : Kont} (h : onFalse.links = true) (holds : Bool) :
    machineOutcome onFalse onTrue holds frames = if holds then .moves onTrue.move else .failsTo (some onFalse) := by
  cases onFalse <;> first | rfl | cases h

/-- A `where`. -/
theorem check_iff {cond : Expr} {r : Rho} {next : Kont} (hr : HandledBy r) :
    (∀ frames calls, Opened frames r calls → ∀ holds,
      (Site.check cond r next).op.outcome holds r calls =
        machineOutcome (Site.check cond r next).onFalse next holds frames) ↔
    (Site.check cond r next).plain := by
  cases ht : findBacktrackTarget r with
  | none =>
    have hfalse : (Site.check cond r next).onFalse = .abortRule := by simp only [Site.onFalse, ht, Option.getD_none]
    refine iff_of_true (fun frames calls h holds => ?_) fun site hsite => by rw [ht] at hsite; cases hsite
    rw [Site.op, hfalse, outcome_hard rfl, ← h.abortsTo ht]
    rfl
  | some t =>
    have hfalse : (Site.check cond r next).onFalse = t := by simp only [Site.onFalse, ht, Option.getD_some]
    have hlinks := hr t ht
    cases t with
    | onFail a b c =>
      refine iff_of_true (fun frames calls h holds => ?_) fun site hsite => by rw [ht] at hsite; cases hsite
      rw [Site.op, hfalse, outcome_hard rfl, machineOutcome_links hlinks, List.findSome?_cons, ht]
      rfl
    | resync site =>
      refine iff_of_false (fun h => ?_) fun h => h site ht
      have hopened : Opened [] r [] := ⟨rfl, fun hnone => by rw [List.findSome?_cons, ht] at hnone; cases hnone⟩
      have hno := h [] [] hopened false
      rw [Site.op, hfalse, outcome_soft rfl, machineOutcome_links hlinks] at hno
      cases hno
    | _ => cases hlinks

theorem machineOutcome_soft {onFalse onTrue : Kont} (h : onFalse.recovers = false) (holds : Bool) :
    machineOutcome onFalse onTrue holds frames = .moves (if holds then onTrue.move else onFalse.move) := by
  cases holds with
  | true => rfl
  | false => cases onFalse <;> first | rfl | cases h

theorem hard_eq_false {k : Kont} (h : k.recovers = false) : hard k = false := by
  cases k <;> first | rfl | cases h

/-- A branch whose true edge is no scalar's read takes that edge. -/
theorem move_present {cond : Expr} {onFalse onTrue : Kont} (h : hard onFalse = false)
    (hno : ∀ prim rest, onTrue ≠ .matchPrimitive prim rest) :
    (lowerConstraint cond onFalse onTrue).move true = onTrue.move := by
  unfold lowerConstraint
  rw [if_neg (Bool.eq_false_iff.1 h)]
  split
  case h_1 prim rest => exact absurd rfl (hno prim rest)
  case h_2 => rfl

/-- One whose true edge is a scalar's read takes it in, and goes on at the false edge. -/
theorem move_scalar {cond : Expr} {onFalse : Kont} {prim : PrimitiveInfo} {rest : Kont} (h : hard onFalse = false) :
    (lowerConstraint cond onFalse (.matchPrimitive prim rest)).move true = .reads prim rest.storeName onFalse := by
  unfold lowerConstraint
  rw [if_neg (Bool.eq_false_iff.1 h)]
  rfl

/-- What a construct is compiled to begins with a scalar's read only where it is a scalar, or nothing. -/
theorem compile_scalar (t : TypeExpr) {r : Rho} {next : Kont} {prim : PrimitiveInfo} {rest : Kont}
    (h : compile t r next = .matchPrimitive prim rest) :
    (∃ kind constraint iv, t = .primitive kind constraint iv ∧ (kind != .bytes && kind != .string) = true ∧
      rest = fieldDest (internFieldOrAnon r) (wrapWhere constraint r next)) ∨
    (t = .union .nil ∧ next = .matchPrimitive prim rest) := by
  cases t with
  | primitive kind constraint iv =>
    refine .inl ⟨kind, constraint, iv, rfl, ?_⟩
    simp only [compile, compilePrimitive] at h
    split at h
    · cases h
    case isFalse hkind =>
      cases h
      simpa using hkind
  | union variants =>
    rcases variants with _ | ⟨name, body, c, iv, _ | _⟩
    · exact .inr ⟨rfl, h⟩
    · cases h
    · cases h
  | optional element constraint iv => rcases constraint with _ | e <;> cases h
  | _ => cases h

theorem compile_checkedScalar {t : TypeExpr} {r : Rho} {next : Kont} (h : checkedScalar t = true) :
    ∃ prim rest, compile t r next = .matchPrimitive prim rest := by
  rcases t with _ | _ | _ | _ | _ | _ | ⟨kind, _ | constraint, iv⟩ | _ | _ | _ | _
  case primitive.some =>
    have hkind : ¬ (kind = .bytes ∨ kind = .string) := by simpa [checkedScalar] using h
    simp only [compile, compilePrimitive, if_neg hkind]
    exact ⟨_, _, rfl⟩
  all_goals cases h

theorem afterStore_ne (prim : PrimitiveInfo) (rest : Kont) : rest.afterStore ≠ .matchPrimitive prim rest := by
  have hle : sizeOf rest.afterStore ≤ sizeOf rest := by
    unfold Kont.afterStore
    split
    · simp only [Kont.capture.sizeOf_spec, Kont.storeEnv.sizeOf_spec]
      omega
    · simp only [Kont.storeEnv.sizeOf_spec]
      omega
    · exact Nat.le_refl _
  intro h
  have hsize := congrArg sizeOf h
  simp only [Kont.matchPrimitive.sizeOf_spec] at hsize
  omega

theorem evalConstraint_ne (cond : Expr) (onFalse next : Kont) : .evalConstraint cond onFalse next ≠ next := by
  intro h
  have hsize := congrArg sizeOf h
  simp only [Kont.evalConstraint.sizeOf_spec] at hsize
  omega

/-- A predicate. -/
theorem predicate_iff {cond : Expr} {element : TypeExpr} {r : Rho} {next : Kont} (hnext : next.recovers = false) :
    (∀ frames calls, Opened frames r calls → ∀ holds,
      (Site.predicate cond element r next).op.outcome holds r calls =
        machineOutcome next (compile element r next) holds frames) ↔
    (Site.predicate cond element r next).plain := by
  have hsoft := hard_eq_false hnext
  -- the false edge is the same, so that the true edge decides
  have htrue : (∀ frames calls, Opened frames r calls → ∀ holds,
      (Site.predicate cond element r next).op.outcome holds r calls =
        machineOutcome next (compile element r next) holds frames) ↔
      (lowerConstraint cond next (compile element r next)).move true = (compile element r next).move := by
    constructor
    · intro h
      exact ReaderOp.outcome_moves.1 (h [] [] ⟨rfl, fun _ => rfl⟩ true)
    · intro h frames calls _ holds
      rw [machineOutcome_soft hnext]
      cases holds with
      | true => exact ReaderOp.outcome_moves.2 h
      | false => exact outcome_soft hsoft r calls
  rw [htrue]
  by_cases hread : ∃ prim rest, compile element r next = .matchPrimitive prim rest
  · obtain ⟨prim, rest, hread⟩ := hread
    rw [hread, move_scalar hsoft]
    rcases compile_scalar element hread with ⟨kind, constraint, iv, rfl, hkind, rfl⟩ | ⟨rfl, rfl⟩
    · rw [Kont.move, afterStore_fieldDest, Site.plain]
      cases constraint with
      | none => exact iff_of_true rfl ⟨rfl, nofun⟩
      | some cond =>
        refine iff_of_false (fun h => ?_) fun h => ?_
        · injection h with _ _ h
          exact evalConstraint_ne _ _ _ h.symm
        · exact Bool.false_ne_true (h.1.symm.trans hkind)
    · refine iff_of_false (fun h => ?_) fun h => h.2 rfl prim rest rfl
      injection h with _ _ h
      exact afterStore_ne prim rest h.symm
  · refine iff_of_true (move_present hsoft fun prim rest h => hread ⟨prim, rest, h⟩) ⟨?_, ?_⟩
    · exact Bool.eq_false_iff.2 fun h => hread (compile_checkedScalar h)
    · rintro rfl prim rest rfl
      exact hread ⟨prim, rest, rfl⟩

end

end Bbq.Cek
