import Mathlib.Data.List.Basic

/-!
# Backtracking by marks, against backtracking by copies

A component that is driven with backtracking is marked, driven on, and now and then brought back
to a mark. The simplest one saves a copy of its state and returns to it. A real one writes down
a few lengths and truncates. This file says when the second does what the first does.

* `Speculative` is such a component: its steps, what a mark records and what restoring one does.
* `Bracket` says which operations open and which close a scope, and `WellNested` is the discipline
  of a driver: it closes no scope that was open at a live mark, restores only live marks and ends
  with every scope closed.
* `Implements` lists what has to hold of single operations, and **`run_view`** is the run rule:
  after well-nested calls the component is a view of the one that keeps copies.

Nothing here is about a particular component.
-/

namespace Bbq.Lib

variable {σ δ μ ο : Type}

/-- One call on a component driven with backtracking. -/
inductive Call (ο : Type)
  | op (o : ο)
  | mark
  /-- Back to the live mark `k` from the innermost. It stays live, those inside it do not. -/
  | restore (k : Nat)
  /-- The innermost live mark will not be restored any more. -/
  | forget
  deriving DecidableEq, Repr

/-- A component with marks. -/
structure Speculative (σ ο μ : Type) where
  step : σ → ο → σ
  mark : σ → μ
  restore : σ → μ → σ

/-- One call, on the component and its live marks, innermost first. -/
def Speculative.call (c : Speculative σ ο μ) : σ × List μ → Call ο → σ × List μ
  | (s, ms), .op o => (c.step s o, ms)
  | (s, ms), .mark => (s, c.mark s :: ms)
  | (s, ms), .restore k =>
    match ms.drop k with
    | [] => (s, ms)
    | m :: outer => (c.restore s m, m :: outer)
  | (s, ms), .forget => (s, ms.tail)

def Speculative.run (c : Speculative σ ο μ) (s : σ × List μ) (calls : List (Call ο)) : σ × List μ :=
  calls.foldl c.call s

/-! ## Well-nested calls -/

/-- What an operation does to the open scopes. -/
inductive Bracket
  | opens | closes | flat
  deriving DecidableEq, Repr

def Bracket.depth : Bracket → Nat → Nat
  | .opens, n => n + 1
  | .closes, n => n - 1
  | .flat, n => n

/-- A call on how many scopes are open and how many were at each live mark. `none` when it closes a
scope that was open at a live mark, or asks for a mark that is not live. -/
def nestStep (bracket : ο → Bracket) : Nat × List Nat → Call ο → Option (Nat × List Nat)
  | (n, ms), .op o =>
    if bracket o = .closes ∧ n ≤ ms.headD 0 then none else some ((bracket o).depth n, ms)
  | (n, ms), .mark => some (n, n :: ms)
  | (_, ms), .restore k =>
    match ms.drop k with
    | [] => none
    | m :: outer => some (m, m :: outer)
  | (n, ms), .forget =>
    match ms with
    | [] => none
    | _ :: outer => some (n, outer)

def nest (bracket : ο → Bracket) : Nat × List Nat → List (Call ο) → Option (Nat × List Nat)
  | now, [] => some now
  | now, c :: calls => (nestStep bracket now c).bind fun next => nest bracket next calls

/-- **The discipline**: begun with nothing open, the calls end with nothing open. -/
def WellNested (bracket : ο → Bracket) (calls : List (Call ο)) : Prop :=
  (nest bracket (0, []) calls).map Prod.fst = some 0

instance (bracket : ο → Bracket) (calls : List (Call ο)) : Decidable (WellNested bracket calls) :=
  inferInstanceAs (Decidable (_ = _))

/-! ## Copies -/

/-- The component that keeps a copy at a mark. What `keep now saved` makes of the copy is what
outlives a restore. -/
def copying (step : δ → ο → δ) (keep : δ → δ → δ) : Speculative δ ο δ :=
  { step, mark := id, restore := keep }

/-- What single operations have to do for `c` to be a view of the component that keeps copies.
`Since b s` is for "`s` was `b` some operations ago, none of which closed a scope of `b`'s". -/
structure Implements (bracket : ο → Bracket) (c : Speculative σ ο μ) (step : δ → ο → δ) (keep : δ → δ → δ) where
  view : σ → δ
  depth : σ → Nat
  Good : σ → Prop
  Since : σ → σ → Prop
  good_step {s : σ} {o : ο} : Good s → Good (c.step s o)
  depth_step {s : σ} {o : ο} : Good s → depth (c.step s o) = (bracket o).depth (depth s)
  view_step {s : σ} {o : ο} : Good s → (bracket o = .closes → 0 < depth s) → view (c.step s o) = step (view s) o
  since_refl (s : σ) : Since s s
  since_step {b s : σ} {o : ο} : Since b s → (bracket o = .closes → depth b < depth s) → Since b (c.step s o)
  since_depth {b s : σ} : Since b s → depth b ≤ depth s
  good_restore {b s : σ} : Good b → Since b s → Good (c.restore s (c.mark b))
  depth_restore {b s : σ} : Since b s → depth (c.restore s (c.mark b)) = depth b
  view_restore {b s : σ} : Since b s → view (c.restore s (c.mark b)) = keep (view s) (view b)
  since_restore {a b s : σ} : Since a b → Since b s → Since a (c.restore s (c.mark b))

namespace Implements

variable {bracket : ο → Bracket} {c : Speculative σ ο μ} {step : δ → ο → δ} {keep : δ → δ → δ}

/-- The component is at `s` and was at `bs` when its live marks were taken. -/
structure Chain (i : Implements bracket c step keep) (s : σ) (bs : List σ) : Prop where
  good : ∀ x ∈ s :: bs, i.Good x
  since : (s :: bs).Pairwise fun x b => i.Since b x

variable {i : Implements bracket c step keep} {s : σ} {bs : List σ}

theorem Chain.since_of_mem (h : i.Chain s bs) {b : σ} (hb : b ∈ bs) : i.Since b s :=
  (List.pairwise_cons.1 h.since).1 b hb

/-- The live marks were taken at most as deep as the innermost of them. -/
theorem Chain.depth_le_head (h : i.Chain s bs) {b : σ} (hb : b ∈ bs) :
    i.depth b ≤ (bs.map i.depth).headD 0 := by
  cases bs with
  | nil => cases hb
  | cons b₀ bs =>
    rcases List.mem_cons.1 hb with rfl | hb
    · exact Nat.le_refl _
    · have hpair := (List.pairwise_cons.1 h.since).2
      exact i.since_depth ((List.pairwise_cons.1 hpair).1 b hb)

theorem Chain.op (h : i.Chain s bs) {o : ο}
    (hopen : ¬ (bracket o = .closes ∧ i.depth s ≤ (bs.map i.depth).headD 0)) : i.Chain (c.step s o) bs := by
  refine ⟨fun x hx => ?_, List.pairwise_cons.2 ⟨fun b hb => ?_, (List.pairwise_cons.1 h.since).2⟩⟩
  · rcases List.mem_cons.1 hx with rfl | hx
    · exact i.good_step (h.good s List.mem_cons_self)
    · exact h.good x (List.mem_cons_of_mem _ hx)
  · refine i.since_step (h.since_of_mem hb) fun hcloses => ?_
    have hle := h.depth_le_head hb
    have hlt := not_and.1 hopen hcloses
    omega

theorem Chain.mark (h : i.Chain s bs) : i.Chain s (s :: bs) := by
  refine ⟨fun x hx => ?_, List.pairwise_cons.2 ⟨fun b hb => ?_, h.since⟩⟩
  · rcases List.mem_cons.1 hx with rfl | hx
    · exact h.good x List.mem_cons_self
    · exact h.good x hx
  · rcases List.mem_cons.1 hb with rfl | hb
    · exact i.since_refl b
    · exact h.since_of_mem hb

theorem Chain.drop (h : i.Chain s bs) (k : Nat) : i.Chain s (bs.drop k) :=
  have hsub : (s :: bs.drop k).Sublist (s :: bs) := (List.drop_sublist k bs).cons_cons s
  ⟨fun x hx => h.good x (hsub.subset hx), h.since.sublist hsub⟩

theorem Chain.restore {b : σ} (h : i.Chain s (b :: bs)) : i.Chain (c.restore s (c.mark b)) (b :: bs) := by
  have hb : i.Since b s := h.since_of_mem List.mem_cons_self
  have hbs := (List.pairwise_cons.1 h.since).2
  refine ⟨fun x hx => ?_, List.pairwise_cons.2 ⟨fun a ha => ?_, hbs⟩⟩
  · rcases List.mem_cons.1 hx with rfl | hx
    · exact i.good_restore (h.good b (by simp)) hb
    · exact h.good x (List.mem_cons_of_mem _ hx)
  · rcases List.mem_cons.1 ha with rfl | ha
    · exact i.since_restore (i.since_refl a) hb
    · exact i.since_restore ((List.pairwise_cons.1 hbs).1 a ha) hb

/-- **Step rule**: a call the discipline allows takes the component and the copies to states in the
same relation. -/
theorem call_view (h : i.Chain s bs) {call : Call ο} {n : Nat} {levels : List Nat}
    (hnest : nestStep bracket (i.depth s, bs.map i.depth) call = some (n, levels)) :
    ∃ s' bs', i.Chain s' bs' ∧ n = i.depth s' ∧ levels = bs'.map i.depth ∧
      c.call (s, bs.map c.mark) call = (s', bs'.map c.mark) ∧
      (copying step keep).call (i.view s, bs.map i.view) call = (i.view s', bs'.map i.view) := by
  cases call with
  | op o =>
    rw [nestStep] at hnest
    split at hnest
    · cases hnest
    · rename_i hopen
      cases hnest
      have hs := h.good s List.mem_cons_self
      refine ⟨c.step s o, bs, h.op hopen, (i.depth_step hs).symm, rfl, rfl, ?_⟩
      refine congrArg (·, bs.map i.view) (i.view_step hs fun hcloses => ?_).symm
      have := not_and.1 hopen hcloses
      omega
  | mark =>
    cases hnest
    exact ⟨s, s :: bs, h.mark, rfl, rfl, rfl, rfl⟩
  | restore k =>
    simp only [nestStep, Speculative.call, ← List.map_drop] at hnest ⊢
    have hdrop := h.drop k
    cases hbs : bs.drop k with
    | nil =>
      rw [hbs] at hnest
      cases hnest
    | cons b outer =>
      rw [hbs] at hnest hdrop
      cases hnest
      have hb : i.Since b s := hdrop.since_of_mem List.mem_cons_self
      refine ⟨c.restore s (c.mark b), b :: outer, hdrop.restore, (i.depth_restore hb).symm, rfl, rfl, ?_⟩
      exact congrArg (·, (b :: outer).map i.view) (i.view_restore hb).symm
  | forget =>
    cases bs with
    | nil => cases hnest
    | cons b outer =>
      cases hnest
      exact ⟨s, outer, h.drop 1, rfl, rfl, rfl, rfl⟩

/-- **Run rule**: so do any calls. -/
theorem run_chain : ∀ (calls : List (Call ο)) {s : σ} {bs : List σ} {n : Nat} {levels : List Nat}, i.Chain s bs →
    nest bracket (i.depth s, bs.map i.depth) calls = some (n, levels) →
    ∃ s' bs', i.Chain s' bs' ∧ n = i.depth s' ∧
      c.run (s, bs.map c.mark) calls = (s', bs'.map c.mark) ∧
      (copying step keep).run (i.view s, bs.map i.view) calls = (i.view s', bs'.map i.view)
  | [], s, bs, _, _, h, hnest => by
    cases hnest
    exact ⟨s, bs, h, rfl, rfl, rfl⟩
  | call :: calls, s, bs, n, levels, h, hnest => by
    obtain ⟨⟨n₁, levels₁⟩, hstep, hrest⟩ := Option.bind_eq_some_iff.1 hnest
    obtain ⟨s₁, bs₁, h₁, rfl, rfl, hc, ha⟩ := i.call_view h hstep
    obtain ⟨s', bs', h', hn, hrun, harun⟩ := run_chain calls h₁ hrest
    refine ⟨s', bs', h', hn, ?_, ?_⟩
    · rw [← hrun, ← hc]
      rfl
    · rw [← harun, ← ha]
      rfl

/-- After well-nested calls from a state with nothing open the component is a view of the one that keeps
copies, and again nothing is open. -/
theorem run_view (i : Implements bracket c step keep) {s : σ} (hs : i.Good s) (hd : i.depth s = 0)
    {calls : List (Call ο)} (h : WellNested bracket calls) :
    i.Good (c.run (s, []) calls).1 ∧ i.depth (c.run (s, []) calls).1 = 0 ∧
      i.view (c.run (s, []) calls).1 = ((copying step keep).run (i.view s, []) calls).1 := by
  obtain ⟨⟨n, levels⟩, hnest, rfl⟩ := Option.map_eq_some_iff.1 h
  have hchain : i.Chain s [] := ⟨by simpa using hs, List.pairwise_singleton _ _⟩
  rw [← hd] at hnest
  obtain ⟨s', bs', h', hn, hrun, harun⟩ := i.run_chain calls hchain hnest
  simp only [List.map_nil] at hrun harun
  rw [hrun, harun]
  exact ⟨h'.good s' List.mem_cons_self, hn.symm.trans hd, rfl⟩

end Implements

end Bbq.Lib
