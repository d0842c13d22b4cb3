import Bbq.Cek.Step
import Mathlib.Tactic.IntervalCases

/-!
# The two ways to fail

A `where` that fails goes to the kont the compiler linked it to (`EvalConstraintCheck::on_false`,
`Machine.cpp:990-1008`); any other failure unwinds the frames (`CEKMachine::fail`, `:158-183`). Both
run failure handlers (`AbortRule`, `OnFail`, `Resync`, `:1382-1429, 1553-1608`) until one of them
schedules a kont of the grammar or the parse is over: `Settles`.

* `Sound.settles`: in a sound state the handlers do come to an end.
* `Stands.fail_reaches`: failing past the savepoints that choices left in their last arm comes to the
  savepoint an abort goes to.
* **`edges_agree`**: in a clean run, at any constraint whose edge is clean, the two settle alike.

The edge of a `where` in the last arm of a choice inside another is not clean: it runs the outer
choice's link at the inner choice's savepoint, and leaves both frames behind (`edges_differ`).
-/

namespace Bbq.Cek

open Zcow (Builder Node)

/-! ## Settling -/

namespace Machine

/-- A failure handler is in control. -/
def recovering (m : Machine) : Bool :=
  match m.control with
  | .run k => k.recovers
  | _ => false

end Machine

/-- Failure handlers lead from one state to the other, where none is in control. -/
inductive Settles (p : Program) : Machine → Machine → Prop
  | here {m} : m.recovering = false → Settles p m m
  | turn {m m'} : m.recovering = true → Settles p (m.step p) m' → Settles p m m'

/-- The same continuation, with the same state to run it in. -/
structure Agrees (m m' : Machine) : Prop where
  control : m.control = m'.control
  pos : m.pos = m'.pos
  env : m.env = m'.env
  littleEndian : m.littleEndian = m'.littleEndian
  intervals : m.intervals = m'.intervals
  intervalDepth : m.intervalDepth = m'.intervalDepth
  frames : m.frames = m'.frames
  builder : m.builder = m'.builder

section

variable {p : Program} {m m' s d : Machine}

theorem Settles.unique (h : Settles p m s) (h' : Settles p m d) : s = d := by
  induction h with
  | here hno =>
    cases h' with
    | here => rfl
    | turn hyes => exact absurd hyes (by simp [hno])
  | turn hyes _ ih =>
    cases h' with
    | here hno => exact absurd hyes (by simp [hno])
    | turn _ h' => exact ih h'

/-! ### The diagnostics are never read -/

namespace Machine

/-- Without the carrier and the diagnostics. -/
def silent (m : Machine) : Machine :=
  { m with result := none, bestErrorPos := 0, bestErrorMsg := none }

theorem agrees_iff : Agrees m m' ↔ m.silent = m'.silent := by
  constructor
  · rintro ⟨h₁, h₂, h₃, h₄, h₅, h₆, h₇, h₈⟩
    simp [silent, h₁, h₂, h₃, h₄, h₅, h₆, h₇, h₈]
  · intro h
    simp only [silent, Machine.mk.injEq] at h
    obtain ⟨h₁, h₂, h₃, -, h₄, h₅, h₆, h₇, h₈, -⟩ := h
    exact ⟨h₁, h₄, h₂, h₇, h₅, h₆, h₃, h₈⟩

theorem fail_silent (text text' : String) : (m.fail text).silent = (m.silent.fail text').silent := by
  have hframes : m.silent.frames = m.frames := rfl
  unfold Machine.fail
  rw [hframes]
  rcases unwind m.frames with _ | ⟨k, F⟩
  · rfl
  · rfl

theorem onFail_silent (target next : Option Kont) (pop : Bool) :
    (m.onFail target next pop).silent = (m.silent.onFail target next pop).silent := by
  have hframes : m.silent.frames = m.frames := rfl
  unfold Machine.onFail
  rw [hframes]
  rcases splitSavepoint m.frames with _ | ⟨above, sp, below⟩
  · exact fail_silent _ _
  · rcases target with _ | target
    · exact fail_silent _ _
    · rfl

theorem abortRule_silent : m.abortRule.silent = m.silent.abortRule.silent := by
  have hframes : m.silent.frames = m.frames := rfl
  unfold Machine.abortRule
  rw [hframes]
  rcases abortTarget m.frames with _ | ⟨k, F⟩
  · exact fail_silent _ _
  · rfl

theorem resync_silent (site : LoopSite) :
    (m.resync p site).silent = (m.silent.resync p site).silent := by
  have hframes : m.silent.frames = m.frames := rfl
  unfold Machine.resync
  rw [hframes]
  rcases splitSavepoint m.frames with _ | ⟨above, sp, below⟩
  · exact fail_silent _ _
  · have hpos : (m.silent.restoreTo sp).pos = (m.restoreTo sp).pos := rfl
    have hend : (m.silent.restoreTo sp).effectiveEnd p = (m.restoreTo sp).effectiveEnd p := rfl
    simp only [hpos, hend]
    split
    · split
      · exact fail_silent _ _
      · rfl
    · rfl

theorem step_silent (h : m.recovering = true) : (m.step p).silent = (m.silent.step p).silent := by
  have hctl : m.silent.control = m.control := rfl
  unfold recovering at h
  unfold Machine.step
  rw [hctl]
  rcases hm : m.control with k | _ | _
  · rw [hm] at h
    cases k with
    | onFail target next pop => exact onFail_silent _ _ _
    | resync site => exact resync_silent _
    | abortRule => exact abortRule_silent
    | _ => cases h
  · rfl
  · rfl

end Machine

theorem Agrees.fail (h : Agrees m m') (text text' : String) :
    Agrees (m.fail text) (m'.fail text') := by
  rw [Machine.agrees_iff] at h ⊢
  rw [Machine.fail_silent text "", Machine.fail_silent text' "", h]

theorem Agrees.step (h : Agrees m m') (hm : m.recovering = true) :
    Agrees (m.step p) (m'.step p) := by
  have hm' : m'.recovering = true := by
    rw [← hm, Machine.recovering, Machine.recovering, h.control]
  rw [Machine.agrees_iff] at h ⊢
  rw [Machine.step_silent hm, Machine.step_silent hm', h]

theorem Agrees.symm (h : Agrees m m') : Agrees m' m :=
  ⟨h.control.symm, h.pos.symm, h.env.symm, h.littleEndian.symm, h.intervals.symm,
    h.intervalDepth.symm, h.frames.symm, h.builder.symm⟩

theorem Agrees.trans {m'' : Machine} (h : Agrees m m') (h' : Agrees m' m'') : Agrees m m'' := by
  rw [Machine.agrees_iff] at *
  exact h.trans h'

/-- States that agree settle to states that agree. -/
theorem Agrees.settle (h : Agrees m m') (hs : Settles p m s) :
    ∃ d, Settles p m' d ∧ Agrees s d := by
  induction hs generalizing m' with
  | here hno =>
    refine ⟨m', .here ?_, h⟩
    rw [← hno, Machine.recovering, Machine.recovering, h.control]
  | turn hyes _ ih =>
    obtain ⟨d, hd, hagree⟩ := ih (h.step hyes)
    refine ⟨d, .turn ?_ hd, hagree⟩
    rw [← hyes, Machine.recovering, Machine.recovering, h.control]

end

/-! ## Marks within marks -/

/-- `S` is `S₀` grown, with more scopes open inside. -/
def Extends (S₀ S : List OpenScope) : Prop := ∃ pre S₁, S = pre ++ S₁ ∧ Grown S₀ S₁

namespace Extends

variable {S₀ S S' : List OpenScope}

theorem grow (h : Extends S₀ S) (hg : Grown S S') : Extends S₀ S' := by
  obtain ⟨pre, S₁, rfl, hg₁⟩ := h
  rcases pre with _ | ⟨o, pre⟩
  · exact ⟨[], S', rfl, hg₁.trans hg⟩
  · obtain ⟨o', rfl, -⟩ := hg.head
    exact ⟨o' :: pre, S₁, rfl, hg₁⟩

theorem opened (o : OpenScope) (h : Extends S₀ S) : Extends S₀ (o :: S) := by
  obtain ⟨pre, S₁, rfl, hg⟩ := h
  exact ⟨o :: pre, S₁, rfl, hg⟩

/-- The outer mark is no deeper, and at the same depth has no more children. -/
theorem markOf_le (h : Extends S₀ S) :
    (markOf S₀).depth < (markOf S).depth ∨
      (markOf S₀).depth = (markOf S).depth ∧ (markOf S₀).kids ≤ (markOf S).kids := by
  obtain ⟨pre, S₁, rfl, l, kids, more, R, rfl, rfl⟩ := h
  rcases pre with _ | ⟨o, pre⟩
  · exact .inr ⟨rfl, by simp [markOf]⟩
  · refine .inl ?_
    simp only [markOf, List.cons_append, List.length_append, List.length_cons]
    omega

end Extends

section Builder

variable {b : Builder} {mk mk' : Builder.Mark}

theorem resize_stack (d : Nat) :
    b.resize d = { b with stack := b.stack.drop (b.stack.length - d) } := by
  unfold Builder.resize
  split
  · rfl
  · rename_i h
    have : b.stack.length - d = 0 := by omega
    rw [this, List.drop_zero]

theorem restore_of_nil (h : b.stack.drop (b.stack.length - mk.depth) = []) :
    b.restore mk = { b with stack := [], roots := b.roots.take mk.kids } := by
  simp only [Builder.restore, resize_stack, h, Builder.current, Builder.setCurrent]
  split
  · rfl
  · rw [List.take_of_length_le (by omega)]

theorem restore_of_cons {n : Node} {rest : List Node}
    (h : b.stack.drop (b.stack.length - mk.depth) = n :: rest) :
    b.restore mk = { b with stack := .mk n.cell (n.kids.take mk.kids) :: rest } := by
  simp only [Builder.restore, resize_stack, h, Builder.current, Builder.setCurrent]
  split
  · rfl
  · rw [List.take_of_length_le (by omega)]
    rcases n with ⟨c, kids⟩
    rfl

/-- Restoring an inner mark first makes no difference. -/
theorem restore_restore (hvalid : mk.depth ≤ b.stack.length)
    (hle : mk'.depth < mk.depth ∨ mk'.depth = mk.depth ∧ mk'.kids ≤ mk.kids) :
    (b.restore mk).restore mk' = b.restore mk' := by
  rcases hdrop : b.stack.drop (b.stack.length - mk.depth) with _ | ⟨n, rest⟩
  · -- the inner mark was taken at top level, so the outer one was too
    have hzero : mk.depth = 0 := by
      have := congrArg List.length hdrop
      simp only [List.length_drop, List.length_nil] at this
      omega
    have hkids := hle.resolve_left (by omega)
    have hdrop' : b.stack.drop (b.stack.length - mk'.depth) = [] := by
      rw [hkids.1]
      exact hdrop
    rw [restore_of_nil hdrop, restore_of_nil hdrop', restore_of_nil (by simp)]
    simp [List.take_take, Nat.min_eq_left hkids.2]
  · have hlen : rest.length + 1 = mk.depth := by
      have := congrArg List.length hdrop
      simp only [List.length_drop, List.length_cons] at this
      omega
    rw [restore_of_cons hdrop]
    rcases hle with hlt | ⟨hd, hk⟩
    · have hinner : (Node.mk n.cell (n.kids.take mk.kids) :: rest).drop (rest.length + 1 - mk'.depth) =
          b.stack.drop (b.stack.length - mk'.depth) := by
        have hpos : rest.length + 1 - mk'.depth = rest.length - mk'.depth + 1 := by omega
        have hsum : b.stack.length - mk'.depth =
            b.stack.length - mk.depth + (rest.length - mk'.depth + 1) := by omega
        rw [hsum, ← List.drop_drop, hdrop, hpos, List.drop_succ_cons, List.drop_succ_cons]
      rcases hcase : b.stack.drop (b.stack.length - mk'.depth) with _ | ⟨n', rest'⟩
      · rw [restore_of_nil hcase, restore_of_nil (by simpa using hinner.trans hcase)]
      · rw [restore_of_cons hcase, restore_of_cons (by simpa using hinner.trans hcase)]
    · have houter : b.stack.drop (b.stack.length - mk'.depth) = n :: rest := by rw [hd, hdrop]
      have hsame : (Node.mk n.cell (n.kids.take mk.kids) :: rest).drop
          (rest.length + 1 - mk'.depth) = .mk n.cell (n.kids.take mk.kids) :: rest := by
        rw [hd, hlen, Nat.sub_self, List.drop_zero]
      rw [restore_of_cons houter, restore_of_cons (by simpa using hsame)]
      simp [Node.cell, Node.kids, List.take_take, Nat.min_eq_left hk]

/-- The marks of scopes within scopes. -/
theorem restore_markOf {S₀ S₁ : List OpenScope} (h : Extends S₁ (scopesOf b)) (h' : Extends S₀ S₁) :
    (b.restore (markOf S₁)).restore (markOf S₀) = b.restore (markOf S₀) := by
  refine restore_restore ?_ h'.markOf_le
  obtain ⟨pre, S, hS, l, kids, more, R, rfl, rfl⟩ := h
  have := congrArg List.length hS
  simp only [scopesOf, List.length_append, List.length_map, List.length_cons, List.length_nil] at this
  simp only [markOf]
  omega

end Builder

/-! ## Handlers come to an end -/

section

variable {strict : Prop} {p : Program} {m : Machine} {Γ : List Scope}

theorem Typed.not_recovers {n : Nat} {k : Kont} (h : Typed strict Γ n k) : k.recovers = false := by
  cases h <;> rfl

theorem Stores.not_recovers {n : Nat} {k : Kont} (h : Stores strict Γ n k) :
    k.recovers = false := by
  cases h <;> rfl

theorem Aims.ne_abort {sc : Scope} {k : Kont} (h : Aims strict Γ sc k) : k ≠ .abortRule := by
  cases h with
  | arm hl => cases hl <;> simp
  | lastArm => simp [exhausted]
  | opt => simp
  | site => simp

theorem unwind_length {F F' : List Frame} {k : Kont} (h : unwind F = some (k, F')) :
    F'.length ≤ F.length := by
  induction F with
  | nil => cases h
  | cons f F ih =>
    have hcons : unwind F = some (k, F') → F'.length ≤ (f :: F).length := fun h =>
      Nat.le_succ_of_le (ih h)
    rcases f with _ | sp | _
    · exact hcons h
    · rcases ht : sp.onFailTarget with _ | t
      · simp only [unwind, ht] at h
        exact hcons h
      · simp only [unwind, ht, Option.some.injEq, Prod.mk.injEq] at h
        exact h.2 ▸ Nat.le_refl _
    · exact hcons h

theorem splitSavepoint_length {F above below : List Frame} {sp : Savepoint}
    (h : splitSavepoint F = some (above, sp, below)) : below.length < F.length := by
  induction F generalizing above with
  | nil => cases h
  | cons f F ih =>
    have hcons : (splitSavepoint F).map (fun x => (f :: x.1, x.2)) =
        some (above, sp, below) → below.length < (f :: F).length := fun h => by
      obtain ⟨⟨above', sp', below'⟩, hs, heq⟩ := Option.map_eq_some_iff.1 h
      cases heq
      exact Nat.lt_succ_of_lt (ih hs)
    rcases f with _ | sp' | _
    · exact hcons h
    · cases h
      exact Nat.lt_succ_self _
    · exact hcons h

theorem abortTarget_length {F F' : List Frame} {k : Kont} (h : abortTarget F = some (k, F')) :
    F'.length < F.length := by
  induction F with
  | nil => cases h
  | cons f F ih =>
    have hcons : abortTarget F = some (k, F') → F'.length < (f :: F).length := fun h =>
      Nat.lt_succ_of_lt (ih h)
    rcases f with rf | _ | _
    · rcases ht : rf.ruleFailTarget with _ | t
      · simp only [abortTarget, ht] at h
        exact hcons h
      · simp only [abortTarget, ht, Option.some.injEq, Prod.mk.injEq] at h
        rw [← h.2]
        exact Nat.lt_succ_self _
    · exact hcons h
    · exact hcons h

/-- How far a handler is from the end: an abort goes before the handlers of its frames. -/
def Machine.distance (m : Machine) : Nat :=
  2 * m.frames.length + match m.control with | .run .abortRule => 1 | _ => 0

theorem Machine.distance_le : m.distance ≤ 2 * m.frames.length + 1 := by
  unfold distance
  split
  · exact Nat.le_refl _
  · exact Nat.le_succ _

theorem Machine.fail_length (text : String) : (m.fail text).frames.length ≤ m.frames.length := by
  unfold Machine.fail
  rcases hu : unwind m.frames with _ | ⟨k, F⟩
  · exact Nat.zero_le _
  · exact unwind_length hu

/-- A failure over fewer frames is nearer to the end. -/
theorem Machine.distance_fail {n : Nat} (text : String) (h : m.frames.length < n) :
    (m.fail text).distance < 2 * n := by
  have := distance_le (m := m.fail text)
  have := fail_length (m := m) text
  omega

/-- No failure leads straight to an abort. -/
theorem Stands.distance_fail (text : String) (hf : Stands strict p Γ m) :
    (m.fail text).distance ≤ 2 * m.frames.length := by
  have hlen := Machine.fail_length (m := m) text
  suffices h : (m.fail text).distance = 2 * (m.fail text).frames.length by omega
  unfold Machine.fail
  rcases hf.unwind with hu | ⟨k, sp, below, Δ, hu, ht, preW, W', preS, S', -, -, hfit⟩
  · rw [hu]
    rfl
  · simp only [hu]
    have hsplit : splitSavepoint (.savepoint sp :: below) = some ([], sp, below) := rfl
    obtain ⟨_, _, _, _, _, Δ', sc, target, _, _, _, hat⟩ := hfit.split hsplit
    obtain rfl : target = k := Option.some.inj (hat.target.symm.trans ht)
    have hne := hat.aims.ne_abort
    unfold Machine.distance
    split
    · rename_i hctl
      exact absurd (Control.run.inj hctl) hne
    · rfl

/-- Where a handler leads to a kont of the grammar it is done; else the end is nearer. -/
theorem Sound.handler_step (h : Sound strict p m) (hm : m.recovering = true) :
    (m.step p).recovering = false ∨ (m.step p).distance < m.distance := by
  have hrun : ∀ {Γ n k} {m' : Machine}, Typed strict Γ n k → (m'.go k).recovering = false :=
    fun ht => ht.not_recovers
  unfold Machine.recovering at hm
  cases h.inPlace with
  | typed hctl ht =>
    rw [hctl] at hm
    exact absurd hm (by simp [ht.not_recovers])
  | stores hctl hst =>
    rw [hctl] at hm
    exact absurd hm (by simp [hst.not_recovers])
  | done hctl =>
    rw [hctl] at hm
    cases hm
  | failed hctl =>
    rw [hctl] at hm
    cases hm
  | aborts hctl hf hnone hclean =>
    refine .inr ?_
    have hdist : m.distance = 2 * m.frames.length + 1 := by simp [Machine.distance, hctl]
    simp only [Machine.step, hctl, Machine.exec, Machine.abortRule]
    split
    · rename_i k F ha
      have hlt := abortTarget_length ha
      refine Nat.lt_of_le_of_lt Machine.distance_le ?_
      show 2 * F.length + 1 < m.distance
      omega
    · have := hf.distance_fail "rule abort with no caller backtrack scope"
      omega
  | @recovers Δ k above sp below hctl hov hsplit ht htop =>
    obtain ⟨preW, W', preS, S', -, -, hfit⟩ := hov
    obtain ⟨_, _, _, _, _, Δ', sc, target, _, _, _, hat⟩ := hfit.split hsplit
    obtain rfl : target = k := Option.some.inj (hat.target.symm.trans ht)
    have hlen := splitSavepoint_length hsplit
    have hdist : 2 * m.frames.length ≤ m.distance := Nat.le_add_right _ _
    simp only [Machine.step, hctl]
    cases hat.aims with
    | arm hl =>
      refine .inl ?_
      cases hl with
      | last htyped =>
        simp only [Machine.exec, Machine.onFail, hsplit]
        exact hrun htyped
      | next hl htyped =>
        simp only [Machine.exec, Machine.onFail, hsplit]
        exact hrun htyped
    | opt htyped =>
      refine .inl ?_
      simp only [Machine.exec, Machine.onFail, hsplit]
      exact hrun htyped
    | lastArm =>
      refine .inr ?_
      simp only [exhausted, Machine.exec, Machine.onFail, hsplit]
      exact Nat.lt_of_lt_of_le (Machine.distance_fail _ hlen) hdist
    | site hres hpl =>
      simp only [Machine.exec, Machine.resync, hsplit]
      split
      · split
        · exact .inr (Nat.lt_of_lt_of_le (Machine.distance_fail _ hlen) hdist)
        · exact .inl (hrun (LoopSite.endNode_typed hpl).2)
      · exact .inl (hrun (loopEntry_typed hpl))

/-- A handler takes no static edge. -/
theorem Machine.clean_of_recovering (hm : m.recovering = true) : m.Clean p := by
  intro e onFalse next hctl
  simp [Machine.recovering, hctl, Kont.recovers] at hm

/-- **Failure handlers come to an end.** -/
theorem Sound.settles (h : Sound False p m) : ∃ s, Settles p m s := by
  induction hd : m.distance using Nat.strongRecOn generalizing m with
  | ind n ih =>
    rcases hm : m.recovering with _ | _
    · exact ⟨m, .here hm⟩
    · have hstep : Sound False p (m.step p) :=
        h.step (Machine.clean_of_recovering hm) False.elim False.elim
      rcases h.handler_step hm with hdone | hlt
      · exact ⟨_, .turn hm (.here hdone)⟩
      · obtain ⟨s, hs⟩ := ih _ (hd ▸ hlt) hstep rfl
        exact ⟨s, .turn hm hs⟩

end

/-! ## Where the two meet -/

section

variable {strict : Prop} {p : Program} {m : Machine} {Γ : List Scope}

/-- One handler, run at its savepoint from two states that the savepoint makes alike. -/
theorem Aims.agrees {sc : Scope} {t : Kont} {x y : Machine} {sp : Savepoint}
    {above below : List Frame} (ha : Aims strict Γ sc t) (hsc : sc ≠ .lastArm)
    (hx : splitSavepoint x.frames = some (above, sp, below))
    (hy : y.frames = .savepoint sp :: below) (htop : above = [] ∨ t.popsFrame = true)
    (hi : x.intervals = y.intervals)
    (hb : x.builder.restore sp.captureMark = y.builder.restore sp.captureMark) :
    Agrees (x.exec p t) (y.exec p t) := by
  have hy' : splitSavepoint y.frames = some ([], sp, below) := by rw [hy]; rfl
  have hgo : ∀ (F : List Frame) (k : Kont),
      Agrees ({ x.restoreTo sp with frames := F }.go k) ({ y.restoreTo sp with frames := F }.go k) := by
    intro F k
    rw [Machine.agrees_iff]
    simp [Machine.restoreTo, Machine.silent, Machine.go, hi, hb]
  cases ha with
  | arm hl =>
    cases hl with
    | last =>
      obtain rfl := htop.resolve_right (by simp [Kont.popsFrame])
      simp only [Machine.exec, Machine.onFail, hx, hy']
      exact hgo _ _
    | next =>
      obtain rfl := htop.resolve_right (by simp [Kont.popsFrame])
      simp only [Machine.exec, Machine.onFail, hx, hy']
      exact hgo _ _
  | lastArm => exact absurd rfl hsc
  | opt =>
    simp only [Machine.exec, Machine.onFail, hx, hy', if_true]
    exact hgo _ _
  | site =>
    obtain rfl := htop.resolve_right (by simp [Kont.popsFrame])
    have hend : (x.restoreTo sp).effectiveEnd p = (y.restoreTo sp).effectiveEnd p := by
      simp [Machine.effectiveEnd, Machine.window, Machine.restoreTo, hi]
    have hpos : (x.restoreTo sp).pos = (y.restoreTo sp).pos := rfl
    simp only [Machine.exec, Machine.resync, hx, hy', hend, hpos]
    split
    · split
      · exact (hgo below .halt).fail _ _
      · exact hgo _ _
    · rw [Machine.agrees_iff]
      simp [Machine.restoreTo, Machine.silent, Machine.go, Machine.savepoint, hi, hb]

/-- What a failure comes to, over frames that start with those an abort leaves. -/
structure Comes (p : Program) (m : Machine) (text : String) (t : Kont) (F : List Frame)
    (S : List OpenScope) (y : Machine) (above : List Frame) (sp : Savepoint)
    (below : List Frame) : Prop where
  split : splitSavepoint F = some (above, sp, below)
  target : sp.onFailTarget = some t
  top : above = [] ∨ t.popsFrame = true
  settles : ∀ s, Settles p y s → Settles p (m.fail text) s
  control : y.control = .run t
  frames : y.frames = .savepoint sp :: below
  intervals : y.intervals = m.intervals
  builder : y.builder.restore sp.captureMark = m.builder.restore sp.captureMark
  inner : ∃ S₀, sp.captureMark = markOf S₀ ∧ Extends S₀ S

theorem Comes.mono {text : String} {t : Kont} {F above below : List Frame} {S S' : List OpenScope}
    {y : Machine} {sp : Savepoint} (h : Comes p m text t F S y above sp below)
    (hS : ∀ S₀, Extends S₀ S → Extends S₀ S') : Comes p m text t F S' y above sp below := by
  obtain ⟨S₀, hmark, hext⟩ := h.inner
  exact { h with inner := ⟨S₀, hmark, hS S₀ hext⟩ }

/-- Where the first savepoint is the target's own, failing goes straight to it. -/
theorem Fit.fail_comes {F above below : List Frame} {W : List Window} {S : List OpenScope} {t : Kont}
    {sp : Savepoint} (text : String) (hfit : Fit strict p.bytes.length Γ F W S)
    (hu : Cek.unwind m.frames = Cek.unwind F) (hsplit : splitSavepoint F = some (above, sp, below))
    (ht : sp.onFailTarget = some t) (htop : above = [] ∨ t.popsFrame = true) :
    Comes p m text t F S (m.fail text) above sp below := by
  have hunwind : ∀ {F above}, splitSavepoint F = some (above, sp, below) →
      Cek.unwind F = some (t, .savepoint sp :: below) := by
    intro F
    induction F with
    | nil => intro above h; cases h
    | cons f F ih =>
      intro above h
      rcases f with _ | sp' | _
      · obtain ⟨⟨above', sp', below'⟩, hs, heq⟩ := Option.map_eq_some_iff.1 h
        cases heq
        exact ih hs
      · cases h
        simp [Cek.unwind, ht]
      · obtain ⟨⟨above', sp', below'⟩, hs, heq⟩ := Option.map_eq_some_iff.1 h
        cases heq
        exact ih hs
  obtain ⟨preW, W', preS, S₁, S₀, Δ, sc, target, rfl, rfl, hg, hat⟩ := hfit.split hsplit
  have hfail : (m.fail text).control = .run t ∧ (m.fail text).frames = .savepoint sp :: below ∧
      (m.fail text).intervals = m.intervals ∧ (m.fail text).builder = m.builder := by
    unfold Machine.fail
    rw [hu, hunwind hsplit]
    exact ⟨rfl, rfl, rfl, rfl⟩
  exact ⟨hsplit, ht, htop, fun _ h => h, hfail.1, hfail.2.1, hfail.2.2.1, by rw [hfail.2.2.2],
    S₀, hat.saved.mark, preS, S₁, rfl, hg⟩

/-- **Failing comes to where an abort goes**: the savepoints above are those of choices in their last
arm, and each of them is restored and popped on the way. -/
theorem Stands.fail_reaches {F F' : List Frame} {W preW : List Window} {S preS : List OpenScope}
    {t : Kont} (text : String) (hfit : Fit strict p.bytes.length Γ F W S)
    (hnone : backtrackTarget Γ = none) (ha : abortTarget F = some (t, F'))
    (hclean : CleanRecovery t F') (h : Held strict p m) (hu : unwind m.frames = unwind F)
    (hW : m.windows = preW ++ W) (hS : scopesOf m.builder = preS ++ S) :
    ∃ y above sp below, Comes p m text t F' S y above sp below := by
  induction hfit generalizing m preW preS text with
  | bottom => cases ha
  | @call Γ F W S rf hfit hk hrf ih =>
    rcases htgt : rf.ruleFailTarget with _ | target
    · simp only [abortTarget, htgt] at ha
      exact ih text (hrf ▸ htgt) ha h hu hW hS
    · simp only [abortTarget, htgt, Option.some.injEq, Prod.mk.injEq] at ha
      obtain ⟨rfl, rfl⟩ := ha
      obtain ⟨above, sp, below, hsplit, ht, htop⟩ := hfit.over_self.recovers (hrf ▸ htgt) hclean
      exact ⟨_, above, sp, below, hfit.fail_comes text hu hsplit ht htop⟩
  | @struct Γ F W S o hfit hin ih =>
    have hS' : scopesOf m.builder = (preS ++ [o]) ++ S := by simp [hS]
    obtain ⟨y, above, sp, below, hc⟩ := ih text hnone ha h hu hW hS'
    exact ⟨y, above, sp, below, hc.mono fun S₀ => .opened o⟩
  | @loop Γ F W S o lf hfit hin ih =>
    have hS' : scopesOf m.builder = (preS ++ [o]) ++ S := by simp [hS]
    obtain ⟨y, above, sp, below, hc⟩ := ih text hnone ha h hu hW hS'
    exact ⟨y, above, sp, below, hc.mono fun S₀ => .opened o⟩
  | @window Γ F W S w hfit ih =>
    have hW' : m.windows = (preW ++ [w]) ++ W := by simp [hW]
    exact ih text hnone ha h hu hW' hS
  | @leak Γ F W S w hs hfit ih =>
    have hW' : m.windows = (preW ++ [w]) ++ W := by simp [hW]
    exact ih text hnone ha h hu hW' hS
  | @save Γ sc target F W S₀ S sp₁ hfit hg hsv haim htgt ih =>
    cases haim with
    | arm => cases hnone
    | opt => cases hnone
    | site => cases hnone
    | lastArm =>
      -- the handler `exhausted` restores this savepoint, pops it and fails again
      have hunwind : unwind m.frames = some (exhausted, .savepoint sp₁ :: F) := by
        rw [hu]
        simp [unwind, htgt]
      obtain ⟨m₁, hm₁⟩ : ∃ m₁ : Machine, m₁ =
        { m.noteError text with frames := .savepoint sp₁ :: F, control := .run exhausted } := ⟨_, rfl⟩
      have hfail : m.fail text = m₁ := by simp only [Machine.fail, hunwind, hm₁]
      have hstep : m₁.step p = { m₁.restoreTo sp₁ with frames := F }.fail "alt exhausted" := by
        rw [hm₁]
        rfl
      have hheld : Held strict p m₁ := h.of_eq (by rw [hm₁]; rfl) (by rw [hm₁]; rfl) (by rw [hm₁]; rfl)
      have hW₁ : m₁.windows = preW ++ W := by rw [hm₁]; exact hW
      have hS₁ : scopesOf m₁.builder = preS ++ S := by rw [hm₁]; exact hS
      obtain ⟨hr, hwin, hsc⟩ := restoreTo_spec hheld hW₁ hS₁ hg hsv
      obtain ⟨y, above, sp, below, hc⟩ := ih (m := { m₁.restoreTo sp₁ with frames := F })
        "alt exhausted" hnone ha (hr.of_eq rfl rfl rfl) rfl (show _ = [] ++ W from hwin)
        (show _ = [] ++ S₀ from hsc)
      obtain ⟨S₁, hmark, hext⟩ := hc.inner
      have hrec : m₁.recovering = true := by rw [hm₁]; rfl
      have hi : m₁.intervals = m.intervals := by rw [hm₁]; rfl
      have hb : m₁.builder = m.builder := by rw [hm₁]; rfl
      refine ⟨y, above, sp, below, hc.split, hc.target, hc.top, fun s hs => ?_, hc.control,
        hc.frames, hc.intervals.trans hi, ?_, S₁, hmark, hext.grow hg⟩
      · rw [hfail]
        exact .turn hrec (hstep ▸ hc.settles s hs)
      · have hbuilder := hc.builder
        rw [hmark] at hbuilder ⊢
        rw [hbuilder, ← restore_markOf ⟨preS, S, hS, hg⟩ hext, ← hsv.mark, ← hb]
        rfl

/-- From the savepoint on, the two are one. -/
theorem Comes.meets {text : String} {t : Kont} {x y s : Machine} {above below : List Frame}
    {S : List OpenScope} {sp : Savepoint} {sc : Scope} (h : Comes p m text t x.frames S y above sp below)
    (ha : Aims strict Γ sc t) (hsc : sc ≠ .lastArm) (hctl : x.control = .run t)
    (hi : x.intervals = m.intervals) (hb : x.builder = m.builder) (hs : Settles p x s) :
    ∃ d, Settles p (m.fail text) d ∧ Agrees s d := by
  have hagree : Agrees (x.step p) (y.step p) := by
    simp only [Machine.step, hctl, h.control]
    exact ha.agrees hsc h.split h.frames h.top (hi.trans h.intervals.symm) (by rw [hb, h.builder])
  cases hs with
  | here hno => simp [Machine.recovering, hctl, ha.recovers] at hno
  | turn hyes hs =>
    obtain ⟨d, hd, hsd⟩ := hagree.settle hs
    exact ⟨d, h.settles d (.turn (by simp [Machine.recovering, h.control, ha.recovers]) hd), hsd⟩

end

/-! ## Agreement -/

/-- At a constraint whose failure edge is clean. -/
theorem Sound.settle_alike {p : Program} {m : Machine} {e : Expr} {onFalse next : Kont}
    (h : Sound False p m) (hctl : m.control = .run (.evalConstraint e onFalse next))
    (hrec : onFalse.recovers = true) (hclean : CleanEdge onFalse m.frames) (text : String) :
    ∃ s d, Settles p (m.go onFalse) s ∧ Settles p (m.fail text) d ∧ Agrees s d := by
  obtain ⟨Γ, rfl, hf⟩ : ∃ Γ, onFalse = Cek.failEdge Γ ∧ Stands False p Γ m := by
    rcases h.standing hctl rfl with ⟨Γ, n, ht, hf⟩ | ⟨Γ, n, c, hst, -⟩
    · cases ht with
      | check => exact ⟨Γ, rfl, hf⟩
      | branch habsent => simp [habsent.not_recovers] at hrec
    · cases hst
  obtain ⟨s, hs⟩ := (Sound.failEdge h.held hf hclean).settles
  refine ⟨s, ?_⟩
  suffices hd : ∃ d, Settles p (m.fail text) d ∧ Agrees s d by
    obtain ⟨d, hd, hagree⟩ := hd
    exact ⟨d, hs, hd, hagree⟩
  rcases ht : backtrackTarget Γ with _ | t
  · -- the edge is an abort: past the call, or to the end of the parse
    have hedge : Cek.failEdge Γ = .abortRule := by simp [Cek.failEdge, ht]
    rw [hedge] at hs hclean
    cases hs with
    | here hno => cases hno
    | turn _ hs =>
      change Settles p (m.go .abortRule).abortRule s at hs
      have hframes : (m.go .abortRule).frames = m.frames := rfl
      rcases ha : abortTarget m.frames with _ | ⟨t, F'⟩
      · have habort : (m.go .abortRule).abortRule =
            (m.go .abortRule).fail "rule abort with no caller backtrack scope" := by
          simp only [Machine.abortRule, hframes, ha]
        rw [habort] at hs
        have hsame : Agrees ((m.go .abortRule).fail "rule abort with no caller backtrack scope")
            ((m.go .abortRule).fail text) :=
          Agrees.fail ⟨rfl, rfl, rfl, rfl, rfl, rfl, rfl, rfl⟩ _ _
        exact hsame.settle hs
      · have habort : (m.go .abortRule).abortRule = { m with frames := F' }.go t := by
          simp only [Machine.abortRule, hframes, ha]
          rfl
        rw [habort] at hs
        obtain ⟨Δ, ⟨preW, W', preS, S', -, -, hfit⟩, htgt⟩ := hf.abort ht ha
        obtain ⟨Δ', sc, haim, hsc⟩ := hfit.aims_backtrackTarget htgt
        obtain ⟨y, above, sp, below, hc⟩ := Stands.fail_reaches text hf ht ha (hclean t F' ha) h.held
          rfl (show _ = [] ++ m.windows from rfl) (show _ = [] ++ scopesOf m.builder from rfl)
        exact hc.meets (x := { m with frames := F' }.go t) haim hsc rfl rfl rfl hs
  · have hedge : Cek.failEdge Γ = t := by simp [Cek.failEdge, ht]
    rw [hedge] at hs hclean
    obtain ⟨Δ, sc, haim, hsc⟩ := hf.aims_backtrackTarget ht
    obtain ⟨above, sp, below, hsplit, htgt, htop⟩ := hf.over_self.recovers ht (hclean.recovery haim)
    have hc := hf.fail_comes text rfl hsplit htgt htop
    exact hc.meets (x := m.go t) haim hsc rfl rfl rfl hs

/-- **The two ways to fail agree**: in a run from a rule's entry that takes only clean failure edges,
at every constraint reached whose failure edge is clean, taking that edge and failing there settle in
states that agree. -/
theorem edges_agree {p : Program} {name : String} {entry : Kont} (he : p.entry name = some entry)
    (n : Nat) (hrun : ∀ i < n, ((p.start entry).run p i).Clean p) {e : Expr} {onFalse next : Kont}
    (hctl : ((p.start entry).run p n).control = .run (.evalConstraint e onFalse next))
    (hrec : onFalse.recovers = true) (hclean : CleanEdge onFalse ((p.start entry).run p n).frames)
    (text : String) :
    ∃ s d, Settles p (((p.start entry).run p n).go onFalse) s ∧
      Settles p (((p.start entry).run p n).fail text) d ∧ Agrees s d := by
  have hstart : Sound False p (p.start entry) := .start False.elim he
  exact (hstart.run False.elim n hrun False.elim).settle_alike hctl hrec hclean text

/-- `struct { p: uint8 where p == v }`. -/
def checkedByte (v : Int64) : TypeExpr :=
  .struct (.cons "p" (.primitive (.integer .w8 .unsigned .default .fixed)
    (some (.binOp (.ref (.simple "p" none)) .eq (.intLit v))) none) none none false .nil) none

/-- `I = union { a: union { x: …, y: … }, b: … }`, each arm a checked byte, on the byte 1. -/
def nestedChoice : Program :=
  { grammar :=
      { defaultLittleEndian := true
        rules := [⟨"I", .union (.cons "a" (.union (.cons "x" (checkedByte 9) none none
          (.cons "y" (checkedByte 5) none none .nil))) none none
          (.cons "b" (checkedByte 1) none none .nil))⟩] }
    bytes := [1]
    small := by decide
    externs := none }

def nestedEntry : Kont := (nestedChoice.entry "I").getD .halt

/-- The constraint of the arm `x`, before it fails. -/
theorem edges_agree_x :
    ∃ e onFalse next, ((nestedChoice.start nestedEntry).run nestedChoice 8).control =
        .run (.evalConstraint e onFalse next) ∧
      ∃ s d, Settles nestedChoice (((nestedChoice.start nestedEntry).run nestedChoice 8).go onFalse) s ∧
        Settles nestedChoice
          (((nestedChoice.start nestedEntry).run nestedChoice 8).fail "type error") d ∧
        Agrees s d := by
  refine ⟨_, _, _, rfl, @edges_agree _ "I" _ rfl 8 (fun i hi => ?_) _ _ _ rfl rfl ?_ _⟩
  · intro e onFalse next hctl
    interval_cases i <;> cases hctl
  · intro above sp below hsplit
    cases hsplit
    refine ⟨fun h => ?_, .inl rfl⟩
    cases h

/-- The constraint of the arm `y`, the last of the inner choice: the edge leaves the savepoints of both
choices standing, failing leaves one. -/
theorem edges_differ :
    nestedChoice.entry "I" = some nestedEntry ∧
    ∃ e onFalse next, ((nestedChoice.start nestedEntry).run nestedChoice 15).control =
        .run (.evalConstraint e onFalse next) ∧
      onFalse.recovers = true ∧
      ¬ ∃ s d, Settles nestedChoice (((nestedChoice.start nestedEntry).run nestedChoice 15).go onFalse) s ∧
        Settles nestedChoice
          (((nestedChoice.start nestedEntry).run nestedChoice 15).fail "type error") d ∧
        Agrees s d := by
  refine ⟨rfl, _, _, _, rfl, rfl, ?_⟩
  rintro ⟨s, d, hs, hd, hagree⟩
  obtain rfl := hs.unique (.turn rfl (.here rfl))
  obtain rfl := hd.unique (.turn rfl (.turn rfl (.here rfl)))
  have hlen := congrArg List.length hagree.frames
  have htwo : 2 = 1 := hlen
  cases htwo

end Bbq.Cek
