import Bbq.Cek.Step
import Mathlib.Tactic.IntervalCases

/-!
# Cursor confinement

In a clean run whose seeks stay in the window and whose external parsers report no more than was
left, the windows are nested, the cursor is in the active one, and every capture in the tree was
recorded, at some turn, inside the window active at that turn.

* `exec_adds`: one turn adds no capture but the one whose span is `records`.
* `Sound.records_inside`: in a sound state that span is inside the active window.
* **`confined_of_guarded`**: both, along a whole run.

`ExternalCallNode` (`Machine.cpp:1497-1527`) does not look at what the parser reports: an external
parser can take the cursor past the window (`extern_overruns`). The generated C++ view reader checks
it (`reader_view_cpp.inja:112-119`).
-/

namespace Bbq.Cek

open Zcow (Builder)

/-! ## What the capture tree holds -/

def Capture.span (c : Capture) : Window := (c.leaf.startOffset, c.leaf.endOffset)

/-- `d` is the capture or stands somewhere under it. -/
inductive Capture.Under (d : Capture) : Capture → Prop
  | here : Under d d
  | kid {l ks c} : c ∈ ks → Under d c → Under d (.mk l ks)

/-- `d` stands somewhere in the scopes. -/
def Holds (S : List OpenScope) (d : Capture) : Prop := ∃ o ∈ S, ∃ c ∈ o.kids, d.Under c

theorem Holds.cons_iff {o : OpenScope} {S : List OpenScope} {d : Capture} :
    Holds (o :: S) d ↔ (∃ c ∈ o.kids, d.Under c) ∨ Holds S d := by
  simp [Holds]

theorem Holds.attach {c d : Capture} {S : List OpenScope} (h : Holds (attachCapture c S) d) :
    Holds S d ∨ d.Under c := by
  rcases S with _ | ⟨o, R⟩
  · exact .inl h
  · rcases Holds.cons_iff.1 h with ⟨c', hc', hd⟩ | h
    · rcases List.mem_append.1 hc' with hc' | hc'
      · exact .inl (Holds.cons_iff.2 (.inl ⟨c', hc', hd⟩))
      · obtain rfl := List.mem_singleton.1 hc'
        exact .inr hd
    · exact .inl (Holds.cons_iff.2 (.inr h))

theorem Holds.restore {mk : Builder.Mark} {S : List OpenScope} {d : Capture}
    (h : Holds (restoreScopes mk S) d) : Holds S d := by
  unfold restoreScopes at h
  have hsub : ∀ o ∈ S.drop (S.length - 1 - mk.depth), o ∈ S := fun _ => List.mem_of_mem_drop
  rcases hdrop : S.drop (S.length - 1 - mk.depth) with _ | ⟨o, R⟩
  · rw [hdrop] at h
    obtain ⟨o, ho, -⟩ := h
    cases ho
  · rw [hdrop] at h hsub
    rcases Holds.cons_iff.1 h with ⟨c, hc, hd⟩ | ⟨o', ho', hc⟩
    · exact ⟨o, hsub o List.mem_cons_self, c, List.mem_of_mem_take hc, hd⟩
    · exact ⟨o', hsub o' (List.mem_cons_of_mem _ ho'), hc⟩

/-- A scope that closes becomes a capture, with its kids under it. -/
theorem Holds.closeScope {b : Builder} {pos : Nat} {d : Capture}
    (h : Holds (scopesOf (b.closeScope pos)) d) :
    Holds (scopesOf b) d ∨ ∃ o R, scopesOf b = o :: R ∧ d.span = (o.leaf.startOffset, pos) := by
  rcases hst : b.stack with _ | ⟨n, rest⟩
  · simp only [Builder.closeScope, hst] at h
    exact .inl h
  · obtain ⟨o, R, hS⟩ : ∃ o R, scopesOf { b with stack := rest } = o :: R := by
      rcases hrest : scopesOf { b with stack := rest } with _ | ⟨o, R⟩
      · exact absurd hrest (scopesOf_ne_nil _)
      · exact ⟨o, R, rfl⟩
    have hb : scopesOf b = ⟨leafOf n.cell, capturesOf n.kids⟩ :: o :: R := by
      rw [← hS]
      simp [scopesOf, hst]
    rw [scopesOf_closeScope b hb, ← hS] at h
    rcases h.attach with h | h
    · exact .inl (hb ▸ Holds.cons_iff.2 (.inr (hS ▸ h)))
    · cases h with
      | here => exact .inr ⟨_, _, hb, rfl⟩
      | kid hc hd => exact .inl (hb ▸ Holds.cons_iff.2 (.inl ⟨_, hc, hd⟩))

/-! ## What one turn adds -/

namespace Machine

/-- The capture stands in the tree built so far. -/
def Recorded (m : Machine) (d : Capture) : Prop := Holds (scopesOf m.builder) d

/-- The span of the innermost open scope, were it closed here. -/
def scopeSpan (m : Machine) : Option Window :=
  (scopesOf m.builder).head?.map fun o => (o.leaf.startOffset, m.pos)

/-- The span the coming turn writes into the capture tree. -/
def records (m : Machine) : Option Window :=
  match m.control with
  | .run (.capture _ _) =>
    match m.result with
    | some (.capture c) => some c.span
    | _ => none
  | .run (.endStruct _) | .run (.endArray _ _) => m.scopeSpan
  | _ => none

/-- `m'` holds nothing `m` does not, but captures of the span. -/
def Adds (m m' : Machine) (span : Option Window) : Prop :=
  ∀ d, m'.Recorded d → m.Recorded d ∨ span = some d.span

section

variable {p : Program} {m m' : Machine} {span : Option Window}

theorem Adds.of_scopes (h : scopesOf m'.builder = scopesOf m.builder) : Adds m m' span := fun d hd =>
  .inl (by rwa [Recorded, h] at hd)

theorem Adds.opens {leaf : Leaf} (h : scopesOf m'.builder = ⟨leaf, []⟩ :: scopesOf m.builder) :
    Adds m m' span := fun d hd => by
  rw [Recorded, h, Holds.cons_iff] at hd
  exact .inl (hd.resolve_left (by simp))

theorem Adds.restores {mk : Builder.Mark} (h : m'.builder = m.builder.restore mk) :
    Adds m m' span := fun d hd => by
  rw [Recorded, h, scopesOf_restore] at hd
  exact .inl hd.restore

theorem Adds.trans {m'' : Machine} (h : Adds m m' none) (h' : Adds m' m'' span) :
    Adds m m'' span := fun d hd => by
  rcases h' d hd with hd | hd
  · exact .inl ((h d hd).resolve_right (by simp))
  · exact .inr hd

theorem Adds.fail (text : String) : Adds m (m.fail text) span := by
  refine .of_scopes ?_
  unfold Machine.fail
  split
  · rfl
  · rfl

theorem Adds.consume {e : Expr} {f : Machine → Option Value → Machine}
    (hf : ∀ v, Adds m (f { m with result := v } v) span) : Adds m (m.consume p e f) span := by
  unfold Machine.consume
  split
  · exact .fail _
  · exact hf _

theorem Adds.consumeInt {e : Expr} {text : String} {f : Machine → Int64 → Machine}
    (hf : ∀ v i, Adds m (f { m with result := v } i) span) :
    Adds m (m.consumeInt p e text f) span := by
  refine .consume fun v => ?_
  split
  · exact hf _ _
  · exact Adds.trans (.of_scopes rfl) (.fail _)

theorem Adds.consumeBool {e : Expr} {text : String} {f : Machine → Bool → Machine}
    (hf : ∀ v b, Adds m (f { m with result := v } b) span) :
    Adds m (m.consumeBool p e text f) span := by
  refine .consume fun v => ?_
  split
  · exact hf _ _
  · exact Adds.trans (.of_scopes rfl) (.fail _)

/-- A failure of a machine that holds what `m` holds. -/
theorem Adds.thenFail (text : String) (h : scopesOf m'.builder = scopesOf m.builder) :
    Adds m (m'.fail text) span :=
  Adds.trans (.of_scopes h) (.fail _)

theorem matchPrimitive_adds (prim : PrimitiveInfo) (k : Kont) :
    Adds m (m.matchPrimitive p prim k) span := by
  unfold Machine.matchPrimitive
  rcases prim.encoding with _ | _ | _
  · simp only
    split
    · exact .fail _
    · exact .of_scopes rfl
  · simp only
    split
    · exact .of_scopes rfl
    · exact .fail _
  · simp only
    split
    · exact .of_scopes rfl
    · exact .fail _

theorem matchBytes_adds (e : Expr) (isString : Bool) (k : Kont) :
    Adds m (m.matchBytes p e isString k) span := by
  refine .consumeInt fun v i => ?_
  simp only
  split
  · exact .thenFail _ rfl
  · exact .of_scopes rfl

theorem bindCompute_adds (e : Expr) (k : Kont) : Adds m (m.bindCompute p e k) span := by
  refine .consume fun v => ?_
  split
  · exact .thenFail _ rfl
  · exact .of_scopes rfl

theorem externalCall_adds (funcName : String) (k : Kont) :
    Adds m (m.externalCall p funcName k) span := by
  unfold Machine.externalCall
  split
  · exact .fail _
  · split
    · exact .fail _
    · split
      · exact .fail _
      · exact .of_scopes rfl

theorem extractBits_adds (c : PrimitiveInfo) (w o : Nat) (s : Bool) (k : Kont) :
    Adds m (m.extractBits p c w o s k) span := by
  unfold Machine.extractBits
  simp only
  split
  · exact .fail _
  · exact .of_scopes (scopesOf_scopeIsBitsRun _ _)

theorem storeEnv_adds (name : Option String) (k : Kont) : Adds m (m.storeEnv name k) span := by
  unfold Machine.storeEnv Machine.placeValue
  split
  · exact .of_scopes rfl
  · exact .fail _

theorem seek_adds (e : Expr) (k : Kont) : Adds m (m.seek p e k) span := by
  refine .consumeInt fun v i => ?_
  split
  · exact .thenFail _ rfl
  · exact .of_scopes rfl

theorem pushIntervalApply_adds (relative : Bool) (v : Int64) (k : Kont) :
    Adds m (m.pushIntervalApply p relative v k) span := by
  simp only [Machine.pushIntervalApply]
  generalize (if relative = true then sizeAdd m.pos v.toInt.toNat else v.toInt.toNat) = stop
  split
  · exact .fail _
  · exact .of_scopes rfl

theorem pushInterval_adds (relative : Bool) (e : Expr) (k : Kont) :
    Adds m (m.pushInterval p relative e k) span := by
  have hmark : scopesOf (m.markRest relative e).builder = scopesOf m.builder := by
    unfold Machine.markRest
    split
    · exact scopesOf_scopeDeterminesRest _ _
    · rfl
  have hfirst : Adds m (m.markRest relative e) none := .of_scopes hmark
  refine hfirst.trans (.consumeInt fun v i => ?_)
  exact Adds.trans (.of_scopes rfl) (pushIntervalApply_adds _ _ _)

theorem popInterval_adds (checked : Bool) (k : Kont) : Adds m (m.popInterval p checked k) span := by
  unfold Machine.popInterval
  split
  · split
    · exact .fail _
    · exact .of_scopes rfl
  · exact .of_scopes rfl

theorem evalConstraint_adds (e : Expr) (onFalse k : Kont) :
    Adds m (m.evalConstraint p e onFalse k) span :=
  .consumeBool fun _ _ => .of_scopes rfl

theorem setEndian_adds (e : Expr) (k : Kont) : Adds m (m.setEndian p e k) span :=
  .consumeBool fun _ _ => .of_scopes rfl

theorem switchDispatch_adds (e : Expr) (cases : Targets) (default : Option Kont) (reject : Bool) :
    Adds m (m.switchDispatch p e cases default reject) span := by
  refine .consume fun v => ?_
  split
  · exact .thenFail _ rfl
  · split
    · exact .of_scopes rfl
    · split
      · exact .of_scopes rfl
      · exact .thenFail _ rfl

theorem popSavepoint_builder : m.popSavepoint.builder = m.builder := by
  unfold popSavepoint
  split
  · rfl
  · rfl

theorem leave_adds (k : Kont) : Adds m (m.popSavepoint.go k) span :=
  .of_scopes (congrArg scopesOf popSavepoint_builder)

theorem onFail_adds (target nextOnFail : Option Kont) (popFrame : Bool) :
    Adds m (m.onFail target nextOnFail popFrame) span := by
  unfold Machine.onFail
  split
  · exact .fail _
  · simp only
    split
    · exact Adds.trans (.restores rfl) (.fail _)
    · exact .restores rfl

theorem invokeRule_adds (ruleName : String) (target : Option Kont) (k : Kont) :
    Adds m (m.invokeRule p ruleName target k) span := by
  unfold Machine.invokeRule
  split
  · exact .of_scopes rfl
  · exact .of_scopes rfl

theorem returnRule_adds (k : Kont) : Adds m (m.returnRule k) span := by
  unfold Machine.returnRule
  split
  · exact .of_scopes rfl
  · exact .of_scopes rfl

theorem abortRule_adds : Adds m m.abortRule span := by
  unfold Machine.abortRule
  split
  · exact .of_scopes rfl
  · exact .fail _

theorem pushResyncSavepoint_builder (site : LoopSite) :
    (m.pushResyncSavepoint site).builder = m.builder := by
  unfold pushResyncSavepoint
  split
  · rfl
  · rfl

theorem enterArray_adds (site : LoopSite) (limit : Int64) :
    Adds m (m.enterArray site limit) span :=
  .opens (scopesOf_beginArray _ _ _)

theorem resyncEntry_adds (site : LoopSite) (limit : Int64) :
    Adds m ((m.enterArray site limit).pushResyncSavepoint site) span :=
  Adds.trans (enterArray_adds site limit)
    (.of_scopes (congrArg scopesOf (pushResyncSavepoint_builder site)))

theorem beginCounted_adds (site : LoopSite) (count : Expr) :
    Adds m (m.beginCounted p site count) span := by
  have harm : scopesOf (m.armCount count).builder = scopesOf m.builder := by
    unfold Machine.armCount
    split
    · exact scopesOf_setPendingCountField _ _
    · rfl
  have hfirst : Adds m (m.armCount count) none := .of_scopes harm
  refine hfirst.trans (.consumeInt fun v limit => ?_)
  simp only
  split
  · exact resyncEntry_adds (m := { m.armCount count with result := v }) site limit
  · exact enterArray_adds (m := { m.armCount count with result := v }) site limit

theorem untilCheck_adds (site : LoopSite) (e : Expr) (k : Kont) :
    Adds m (m.untilCheck p site e k) span :=
  .consumeBool fun _ _ => .of_scopes rfl

theorem beginArray_adds (site : LoopSite) : Adds m (m.beginArray p site) span := by
  unfold Machine.beginArray
  split
  · exact beginCounted_adds _ _
  · exact beginCounted_adds _ _
  · exact resyncEntry_adds site (-1)
  · exact Adds.trans (resyncEntry_adds site (-1)) (untilCheck_adds _ _ _)

theorem nextElement_adds (site : LoopSite) (lf : LoopFrame) :
    Adds m (m.nextElement p site lf) span := by
  unfold Machine.nextElement
  split
  · exact .of_scopes rfl
  · exact .of_scopes rfl
  · refine .consumeInt fun v i => ?_
    split
    · exact .of_scopes rfl
    · exact .thenFail _ rfl
  · exact untilCheck_adds _ _ _

theorem arrayNext_adds (site : LoopSite) : Adds m (m.arrayNext p site) span := by
  unfold Machine.arrayNext
  split
  · split
    · exact Adds.trans (.of_scopes rfl) (nextElement_adds _ _)
    · exact .thenFail _ rfl
    · exact .fail _
  · split
    · exact Adds.trans (.of_scopes rfl) (nextElement_adds _ _)
    · exact .fail _

theorem resync_adds (site : LoopSite) : Adds m (m.resync p site) span := by
  unfold Machine.resync
  split
  · exact .fail _
  · simp only
    split
    · split
      · exact Adds.trans (.restores rfl) (.fail _)
      · exact .restores rfl
    · exact .restores rfl

/-- A scope that closes is recorded with its span. -/
theorem Adds.closes {k : Kont} (h : m'.builder = m.builder.closeScope m.pos) :
    Adds m (m'.go k) m.scopeSpan := fun d hd => by
  have hd' : Holds (scopesOf m'.builder) d := hd
  rw [h] at hd'
  rcases hd'.closeScope with hd' | ⟨o, R, hS, hspan⟩
  · exact .inl hd'
  · exact .inr (by simp [scopeSpan, hS, hspan])

theorem endArray_adds (resync : Bool) (k : Kont) :
    Adds m (m.endArray resync k) m.scopeSpan := by
  have hb : (if resync then m.popSavepoint else m).builder = m.builder ∧
      (if resync then m.popSavepoint else m).pos = m.pos := by
    rcases resync with _ | _
    · exact ⟨rfl, rfl⟩
    · refine ⟨popSavepoint_builder, ?_⟩
      simp only [if_true, popSavepoint]
      split
      · rfl
      · rfl
  unfold Machine.endArray
  simp only
  split
  · exact .closes (by simp only [hb.1, hb.2])
  · exact .thenFail _ (congrArg scopesOf hb.1)

theorem capture_adds (name : Option String) (k : Kont) (hctl : m.control = .run (.capture name k)) :
    Adds m (m.capture name k) m.records := by
  unfold Machine.capture Machine.placeValue
  split
  · rename_i c hres
    intro d hd
    have hd' : Holds (scopesOf (Builder.addField _ _ _ _ _ _ _ _)) d := hd
    rw [scopesOf_addField] at hd'
    rcases hd'.attach with hd' | hd'
    · exact .inl hd'
    · cases hd' with
      | here => exact .inr (by simp [records, hctl, hres, Capture.span, fieldLeaf, Capture.leaf])
      | kid hc => cases hc
  · exact .fail _

/-- **One turn** adds no capture but the one whose span it records. -/
theorem step_adds : Adds m (m.step p) m.records := by
  unfold Machine.step
  split
  · rename_i k hctl
    cases k with
    | halt => exact .of_scopes rfl
    | matchPrimitive prim k => exact matchPrimitive_adds _ _
    | matchBytes e s k => exact matchBytes_adds _ _ _
    | capture name k => exact capture_adds name k hctl
    | storeEnv name k => exact storeEnv_adds _ _
    | beginStruct name k => exact .opens (scopesOf_beginStruct _ _ _)
    | beginVariant name tag k => exact .opens (scopesOf_beginVariant _ _ _ _)
    | endStruct k =>
      have hrec : m.records = m.scopeSpan := by simp [records, hctl]
      rw [hrec]
      exact .closes rfl
    | seek e k => exact seek_adds _ _
    | pushInterval relative e k => exact pushInterval_adds _ _ _
    | popInterval checked k => exact popInterval_adds _ _
    | evalConstraint e onFalse k => exact evalConstraint_adds _ _ _
    | bindCompute e k => exact bindCompute_adds _ _
    | setEndian e k => exact setEndian_adds _ _
    | extractBits c w o s k => exact extractBits_adds _ _ _ _ _
    | advancePos n k => exact .of_scopes rfl
    | externalCall funcName k => exact externalCall_adds _ _
    | switchDispatch e cases default reject => exact switchDispatch_adds _ _ _ _
    | beginChoice target k => exact .of_scopes rfl
    | commitChoice k => exact leave_adds _
    | beginOptional target k => exact .of_scopes rfl
    | endOptional k => exact leave_adds _
    | onFail target nextOnFail popFrame => exact onFail_adds _ _ _
    | invokeRule ruleName target k => exact invokeRule_adds _ _ _
    | returnRule k => exact returnRule_adds _
    | abortRule => exact abortRule_adds
    | beginArray site => exact beginArray_adds _
    | arrayNext site => exact arrayNext_adds _
    | endArray resync k =>
      have hrec : m.records = m.scopeSpan := by simp [records, hctl]
      rw [hrec]
      exact endArray_adds _ _
    | resync site => exact resync_adds _
  · exact .of_scopes rfl
  · exact .of_scopes rfl

end

end Machine

/-! ## Confinement -/

section

variable {strict : Prop} {p : Program} {m : Machine}

/-- What a sound machine is about to record lies in its window. -/
theorem Sound.records_inside {span : Window} (h : Sound strict p m) (hs : strict)
    (hr : m.records = some span) : m.effectiveStart ≤ span.1 ∧ span.2 ≤ m.effectiveEnd p := by
  rw [Machine.effectiveStart_eq h.held.depth p.bytes.length, Machine.effectiveEnd_eq h.held.depth]
  have hscope : ∀ {o R}, scopesOf m.builder = o :: R →
      Inside strict p.bytes.length m.windows o.leaf.startOffset → m.scopeSpan = some span →
      (bounds p.bytes.length m.windows).1 ≤ span.1 ∧
        span.2 ≤ (bounds p.bytes.length m.windows).2 := by
    intro o R hS hin hspan
    simp only [Machine.scopeSpan, hS, List.head?_cons, Option.map_some, Option.some.injEq] at hspan
    subst hspan
    exact ⟨(hin hs).1, (h.held.pos hs).2⟩
  unfold Machine.records at hr
  split at hr
  · rename_i name k hctl
    rcases h.standing hctl rfl with ⟨Γ, n, ht, -⟩ | ⟨Γ, n, c, -, hres, hstart, hstop⟩
    · cases ht
    · rw [hres] at hr
      cases hr
      exact ⟨(hstart hs).1, (hstop hs).2⟩
  · rename_i k hctl
    rcases h.standing hctl rfl with ⟨Γ, n, ht, hf⟩ | ⟨Γ, n, c, hst, -⟩
    · cases ht with
      | endStruct =>
        obtain ⟨o, S', hS, -, hin⟩ := hf.inv_struct
        exact hscope hS hin hr
    · cases hst
  · rename_i resync k hctl
    rcases h.standing hctl rfl with ⟨Γ, n, ht, hf⟩ | ⟨Γ, n, c, hst, -⟩
    · cases ht with
      | endArray =>
        obtain ⟨lf, F', o, S', -, hS, -, hin⟩ := hf.inv_loop
        exact hscope hS hin hr
      | endArrayResync =>
        obtain ⟨sp, F', target, -, -, -, hf'⟩ := hf.inv_save (by simp)
        obtain ⟨lf, F', o, S', -, hS, -, hin⟩ := hf'.inv_loop
        exact hscope hS hin hr
    · cases hst
  · cases hr

end

/-- The windows are nested, the cursor is in the innermost, and that ends within the input. -/
structure Confined (p : Program) (m : Machine) : Prop where
  nested : NestedAll p.bytes.length m.windows
  pos : m.pos ≤ m.effectiveEnd p
  stop : m.effectiveEnd p ≤ p.bytes.length

theorem Sound.confined {strict : Prop} {p : Program} {m : Machine} (h : Sound strict p m)
    (hs : strict) : Confined p m := by
  have hend := Machine.effectiveEnd_eq h.held.depth p
  refine ⟨h.held.nested, ?_, ?_⟩
  · rw [hend]
    exact (h.held.pos hs).2
  · rw [hend]
    exact h.held.bounds_le

namespace Machine

/-- Where each capture of a run comes from. -/
theorem recorded_run {p : Program} {m : Machine} {d : Capture} (n : Nat)
    (h : (m.run p n).Recorded d) :
    m.Recorded d ∨ ∃ i < n, (m.run p i).records = some d.span := by
  induction n generalizing m with
  | zero => exact .inl h
  | succ n ih =>
    rcases ih h with h | ⟨i, hi, hrec⟩
    · rcases step_adds d h with h | hrec
      · exact .inl h
      · exact .inr ⟨0, Nat.succ_pos n, hrec⟩
    · exact .inr ⟨i + 1, Nat.succ_lt_succ hi, hrec⟩

end Machine

/-- **Cursor confinement.** In a run from a rule's entry that takes only clean failure edges, seeks
only within the window and is told by no external parser that it consumed more than was left, every
state is confined, and every capture of its tree was recorded by an earlier turn, within the window
active at that turn. -/
theorem confined_of_guarded {p : Program} {name : String} {entry : Kont}
    (he : p.entry name = some entry) (hrest : p.grammar.restOnce = true) (n : Nat)
    (hclean : ∀ i < n, ((p.start entry).run p i).Clean p)
    (hguard : ∀ i < n, ((p.start entry).run p i).Guarded p) :
    Confined p ((p.start entry).run p n) ∧
      ∀ d, ((p.start entry).run p n).Recorded d → ∃ i < n,
        ((p.start entry).run p i).records = some d.span ∧
        ((p.start entry).run p i).effectiveStart ≤ d.span.1 ∧
        d.span.2 ≤ ((p.start entry).run p i).effectiveEnd p := by
  have hsound : ∀ i ≤ n, Sound True p ((p.start entry).run p i) := by
    intro i hi
    have hstart : Sound True p (p.start entry) := .start (fun _ => hrest) he
    exact hstart.run (fun _ => hrest) i (fun j hj => hclean j (by omega))
      fun _ j hj => hguard j (by omega)
  refine ⟨(hsound n (Nat.le_refl n)).confined trivial, fun d hd => ?_⟩
  rcases Machine.recorded_run n hd with hd | ⟨i, hi, hrec⟩
  · obtain ⟨o, ho, c, hc, -⟩ := hd
    obtain rfl := List.mem_singleton.1 ho
    cases hc
  · exact ⟨i, hi, hrec, (hsound i (Nat.le_of_lt hi)).records_inside trivial hrec⟩

/-- `B = struct { b: extern "read" }`, with an external parser, on one byte. -/
def externProgram (read : Extern) : Program :=
  { grammar :=
      { defaultLittleEndian := true
        rules := [⟨"B", .struct (.cons "b" (.external "read" none none) none none false .nil) none⟩] }
    bytes := [7]
    small := by decide
    externs := some fun _ => some read }

/-- The parser consumes what is left. -/
def honest : Program := externProgram fun _ n => some n

/-- The parser says it consumed two bytes, of one. -/
def overrun : Program := externProgram fun _ _ => some 2

def externEntry : Kont := .externalCall "read" (.capture (some "b") (.storeEnv (some "b") ruleExit))

theorem confined_of_guarded_honest :
    Confined honest ((honest.start externEntry).run honest 5) ∧
    ∀ d, ((honest.start externEntry).run honest 5).Recorded d → ∃ i < 5,
      ((honest.start externEntry).run honest i).records = some d.span ∧
      ((honest.start externEntry).run honest i).effectiveStart ≤ d.span.1 ∧
      d.span.2 ≤ ((honest.start externEntry).run honest i).effectiveEnd honest := by
  refine @confined_of_guarded _ "B" _ rfl rfl 5 (fun i hi => ?_) fun i hi => ?_
  · intro e onFalse next hctl
    interval_cases i <;> cases hctl
  · refine ⟨fun e next target hctl => ?_, fun funcName next table fn consumed hctl htab hfn hc => ?_⟩
    · interval_cases i <;> cases hctl
    · interval_cases i
      · cases htab
        cases hfn
        cases hc
        decide
      all_goals cases hctl

/-- The parse succeeds with the cursor past the end of the input. -/
theorem extern_overruns :
    overrun.entry "B" = some externEntry ∧
    ((overrun.start externEntry).run overrun 5).control = .done ∧
    ¬ Confined overrun ((overrun.start externEntry).run overrun 5) := by
  refine ⟨rfl, rfl, fun h => ?_⟩
  have hpos := h.pos
  revert hpos
  decide

end Bbq.Cek
