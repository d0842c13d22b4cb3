import Mathlib.Data.List.Forall2
import Mathlib.Data.Option.Basic
import Bbq.Burg.Label

/-!
# What emitted walks read

Lemmas about the guards and leaf lists of `Bbq.Burg.Label`, for whatever is walked.

* Things related node by node have equal guards and related leaves (`patternGuard_congr`,
  `visited_congr`).
* A guard that holds has read every child the leaves are taken from (`visited_of_guard`).
* Against the tree alone: what a pattern leaves to be derived contains what is visited
  (`visited_sublist`), and where all of that can be derived the guard holds (`guard_of_frontier`).
-/

namespace Bbq.Burg

variable {α τ τ' : Type} {G : Spec}

theorem mem_rulesByTerm {op : String} {r : Rule} :
    r ∈ rulesByTerm G op ↔ r ∈ G.rules ∧ G.isNonterm r.pattern = false ∧ r.pattern.name = op := by
  simp only [rulesByTerm, List.mem_filter, Bool.and_eq_true, Bool.not_eq_true', beq_iff_eq]

/-! ## Related things -/

section Related

variable {V : View τ} {V' : View τ'} {R : τ → τ' → Prop}

/-- `R` relates things that a guard cannot tell apart. -/
def Alike (V : View τ) (V' : View τ') (R : τ → τ' → Prop) : Prop :=
  ∀ t t', R t t' → V.op t = V'.op t' ∧ (∀ nt, V.covered t nt = V'.covered t' nt) ∧
    List.Forall₂ R (V.children t) (V'.children t')

mutual

theorem emitPatternGuards_congr (hR : Alike V V' R) :
    ∀ (ps : List TreePattern) {ts : List τ} {ts' : List τ'}, List.Forall₂ R ts ts' →
      emitPatternGuards G V ps ts = emitPatternGuards G V' ps ts'
  | [], _, _, _ => by simp only [emitPatternGuards]
  | p :: ps, [], [], _ => by simp only [emitPatternGuards]
  | p :: ps, t :: ts, t' :: ts', .cons h hs => by
    simp only [emitPatternGuards, guardOperand_congr hR p h, emitPatternGuards_congr hR ps hs]

theorem guardOperand_congr (hR : Alike V V' R) :
    ∀ (p : TreePattern) {t : τ} {t' : τ'}, R t t' → guardOperand G V p t = guardOperand G V' p t'
  | .mk name ps, t, t', h => by
    obtain ⟨hop, hcovered, hchildren⟩ := hR t t' h
    simp only [guardOperand, hop, hcovered, emitPatternGuards_congr hR ps hchildren]

end

theorem patternGuard_congr (hR : Alike V V' R) (p : TreePattern) {t : τ} {t' : τ'}
    (hchildren : List.Forall₂ R (V.children t) (V'.children t')) : patternGuard G V p t = patternGuard G V' p t' := by
  have hnil : V.children t = [] ↔ V'.children t' = [] := by
    rw [← List.length_eq_zero_iff, ← List.length_eq_zero_iff, hchildren.length_eq]
  simp only [patternGuard, emitPatternGuards_congr hR p.children hchildren, hchildren.length_eq, ne_eq, hnil]

/-- Leaves at related things. -/
def LeavesAlike (R : τ → τ' → Prop) : List (τ × String) → List (τ' × String) → Prop :=
  List.Forall₂ fun a b => R a.1 b.1 ∧ a.2 = b.2

theorem tail_alike {ts : List τ} {ts' : List τ'} (h : List.Forall₂ R ts ts') :
    List.Forall₂ R ts.tail ts'.tail := by
  cases h with
  | nil => exact .nil
  | cons _ hs => exact hs

theorem append_alike {here rest : Option (List (τ × String))} {here' rest' : Option (List (τ' × String))}
    (h : Option.Rel (LeavesAlike R) here here') (hs : Option.Rel (LeavesAlike R) rest rest') :
    Option.Rel (LeavesAlike R) (here.bind fun leaves => rest.map fun rest => leaves ++ rest)
      (here'.bind fun leaves => rest'.map fun rest => leaves ++ rest) := by
  cases h with
  | none => exact .none
  | some h =>
    cases hs with
    | none => exact .none
    | some hs => exact .some (List.rel_append h hs)

theorem leaf_alike {ts : List τ} {ts' : List τ'} (h : List.Forall₂ R ts ts') (name : String) :
    Option.Rel (LeavesAlike R) (ts.head?.map fun t => [(t, name)]) (ts'.head?.map fun t => [(t, name)]) := by
  cases h with
  | nil => exact .none
  | cons h _ => exact .some (.cons ⟨h, rfl⟩ .nil)

theorem innerLeaves_congr (ps : List TreePattern) {ts : List τ} {ts' : List τ'} (h : List.Forall₂ R ts ts') :
    Option.Rel (LeavesAlike R) (innerLeaves G ps ts) (innerLeaves G ps ts') := by
  induction ps generalizing ts ts' with
  | nil => exact .some .nil
  | cons p ps ih =>
    refine append_alike ?_ (ih (tail_alike h))
    split
    · exact leaf_alike h p.name
    · exact .some .nil

theorem outerLeaves_congr (hR : Alike V V' R) (ps : List TreePattern) {ts : List τ} {ts' : List τ'}
    (h : List.Forall₂ R ts ts') :
    Option.Rel (LeavesAlike R) (outerLeaves G V.children ps ts) (outerLeaves G V'.children ps ts') := by
  induction ps generalizing ts ts' with
  | nil => exact .some .nil
  | cons p ps ih =>
    refine append_alike ?_ (ih (tail_alike h))
    split
    · exact leaf_alike h p.name
    · split
      · exact .some .nil
      · cases h with
        | nil => exact .none
        | cons h _ => exact innerLeaves_congr p.children (hR _ _ h).2.2

theorem extras_congr (p : TreePattern) {t : τ} {t' : τ'} (h : List.Forall₂ R (V.children t) (V'.children t')) :
    LeavesAlike R (extras G V.children p t) (extras G V'.children p t') := by
  unfold extras LeavesAlike
  rw [List.forall₂_map_left_iff, List.forall₂_map_right_iff]
  exact (List.forall₂_drop _ h).imp fun _ _ hab => ⟨hab, rfl⟩

theorem visited_congr (hR : Alike V V' R) (p : TreePattern) {t : τ} {t' : τ'}
    (h : List.Forall₂ R (V.children t) (V'.children t')) :
    Option.Rel (LeavesAlike R) (visited G V.children p t) (visited G V'.children p t') := by
  have houter := outerLeaves_congr (G := G) hR p.children h
  unfold visited
  cases ho : outerLeaves G V.children p.children (V.children t) with
  | none =>
    rw [ho] at houter
    generalize outerLeaves G V'.children p.children (V'.children t') = o at houter
    cases houter
    exact .none
  | some leaves =>
    rw [ho] at houter
    generalize outerLeaves G V'.children p.children (V'.children t') = o at houter
    cases houter with
    | some hleaves => exact .some (List.rel_append hleaves (extras_congr p h))

end Related

/-! ## What a guard has read -/

section Guarded

variable {V : View τ}

theorem isNonterm_mk {name : String} {ps : List TreePattern} :
    G.isNonterm (.mk name ps) = (ps.isEmpty && !G.isTerminal name) := rfl

theorem innerLeaves_of_guard {ps : List TreePattern} {ts : List τ} (h : emitPatternGuards G V ps ts = some true) :
    ∃ leaves, innerLeaves G ps ts = some leaves := by
  induction ps generalizing ts with
  | nil => exact ⟨[], rfl⟩
  | cons p ps ih =>
    cases ts with
    | nil => simp only [emitPatternGuards, reduceCtorEq] at h
    | cons t ts =>
      rw [emitPatternGuards, Option.bind_eq_some_iff] at h
      obtain ⟨b, -, h⟩ := h
      cases b with
      | false => cases h
      | true =>
        obtain ⟨rest, hrest⟩ := ih h
        simp only [innerLeaves, List.head?_cons, Option.map_some, List.tail_cons, hrest]
        split
        · exact ⟨_, rfl⟩
        · exact ⟨_, rfl⟩

theorem outerLeaves_of_guard {ps : List TreePattern} {ts : List τ} (h : emitPatternGuards G V ps ts = some true) :
    ∃ leaves, outerLeaves G V.children ps ts = some leaves := by
  induction ps generalizing ts with
  | nil => exact ⟨[], rfl⟩
  | cons p ps ih =>
    cases ts with
    | nil => simp only [emitPatternGuards, reduceCtorEq] at h
    | cons t ts =>
      rw [emitPatternGuards, Option.bind_eq_some_iff] at h
      obtain ⟨b, hoperand, h⟩ := h
      cases b with
      | false => cases h
      | true =>
        obtain ⟨rest, hrest⟩ := ih h
        simp only [outerLeaves, List.head?_cons, Option.map_some, Option.bind_some, List.tail_cons, hrest]
        split
        · exact ⟨_, rfl⟩
        · split
          · exact ⟨_, rfl⟩
          · next hleaf =>
            obtain ⟨name, qs⟩ := p
            change ¬ qs.isEmpty = true at hleaf
            rw [guardOperand, if_neg hleaf] at hoperand
            split at hoperand
            · obtain ⟨leaves, hleaves⟩ := innerLeaves_of_guard hoperand
              refine ⟨leaves ++ rest, ?_⟩
              simp only [TreePattern.children, hleaves, Option.bind_some]
            · cases hoperand

/-- A guard that holds has read what the leaves are taken from. -/
theorem visited_of_guard {p : TreePattern} {t : τ} (h : patternGuard G V p t = some true) :
    ∃ leaves, visited G V.children p t = some leaves := by
  unfold patternGuard at h
  split at h
  · next hleaf =>
    have hnil : p.children = [] := List.isEmpty_iff.mp hleaf
    refine ⟨[] ++ extras G V.children p t, ?_⟩
    simp only [visited, hnil, outerLeaves, Option.map_some]
  · split at h
    · obtain ⟨leaves, hleaves⟩ := outerLeaves_of_guard h
      refine ⟨leaves ++ extras G V.children p t, ?_⟩
      simp only [visited, hleaves, Option.map_some]
    · cases h

end Guarded

/-! ## Against the tree -/

theorem frontier_nonterm {p : TreePattern} (h : G.isNonterm p = true) (u : Node α) :
    frontier G p u = some [(u, p.name)] := by
  obtain ⟨name, ps⟩ := p
  rw [isNonterm_mk, Bool.and_eq_true, Bool.not_eq_true'] at h
  rw [frontier, if_pos ⟨h.1, by simp [h.2]⟩]
  rfl

/-- What an operator of a pattern asks of the node it is laid over. -/
theorem frontier_operator {p : TreePattern} (h : G.isNonterm p = false) {u : Node α} :
    frontier G p u = (if u.op = p.name ∧ ¬ (p.isLeaf = true ∧ G.hasOperandRule p.name = true ∧ u.children ≠ []) then
      frontiers G p.children u.children else none) := by
  obtain ⟨name, ps⟩ := p
  rw [isNonterm_mk] at h
  have hne : ¬ (ps.isEmpty = true ∧ ¬ G.isTerminal name = true) := by
    rintro ⟨hempty, hterm⟩
    simp [hempty, hterm] at h
  rw [frontier, if_neg hne]
  by_cases hop : u.op = name
  · rw [if_neg (by simpa using hop)]
    by_cases hleaf : ps.isEmpty = true ∧ G.hasOperandRule name = true ∧ u.children ≠ []
    · rw [if_pos hleaf, if_neg fun hc => hc.2 hleaf]
    · rw [if_neg hleaf, if_pos ⟨hop, hleaf⟩]
      rfl
  · rw [if_pos (by simpa using hop), if_neg fun hc => hop hc.1]

theorem frontiers_length {ps : List TreePattern} {us : List (Node α)} {goals : List (Goal α)}
    (h : frontiers G ps us = some goals) : ps.length ≤ us.length := by
  induction ps generalizing us goals with
  | nil => exact Nat.zero_le _
  | cons p ps ih =>
    cases us with
    | nil => cases h
    | cons u us =>
      rw [frontiers, Option.bind_eq_some_iff] at h
      obtain ⟨first, -, h⟩ := h
      obtain ⟨rest, hrest, -⟩ := Option.map_eq_some_iff.mp h
      exact Nat.succ_le_succ (ih hrest)

/-- What guards read of the tree itself, when `covered` says what can be derived. -/
def Node.view (covered : Node α → String → Bool) : View (Node α) := ⟨Node.children, Node.op, covered⟩

section Frontier

variable {covered : Node α → String → Bool}

mutual

theorem emitPatternGuards_of_frontiers :
    ∀ (ps : List TreePattern) {us : List (Node α)} {goals : List (Goal α)}, frontiers G ps us = some goals →
      (∀ g ∈ goals, covered g.1 g.2 = true) → emitPatternGuards G (Node.view covered) ps us = some true
  | [], _, _, _, _ => by simp only [emitPatternGuards]
  | p :: ps, [], _, h, _ => by cases h
  | p :: ps, u :: us, goals, h, hg => by
    rw [frontiers, Option.bind_eq_some_iff] at h
    obtain ⟨first, hfirst, h⟩ := h
    obtain ⟨rest, hrest, rfl⟩ := Option.map_eq_some_iff.mp h
    rw [emitPatternGuards, guardOperand_of_frontier p hfirst fun g hm => hg g (List.mem_append_left _ hm),
      Option.bind_some, if_pos rfl]
    exact emitPatternGuards_of_frontiers ps hrest fun g hm => hg g (List.mem_append_right _ hm)

theorem guardOperand_of_frontier :
    ∀ (p : TreePattern) {u : Node α} {goals : List (Goal α)}, frontier G p u = some goals →
      (∀ g ∈ goals, covered g.1 g.2 = true) → guardOperand G (Node.view covered) p u = some true
  | .mk name ps, u, goals, h, hg => by
    cases hn : G.isNonterm (.mk name ps) with
    | true =>
      rw [frontier_nonterm hn] at h
      cases h
      rw [isNonterm_mk, Bool.and_eq_true, Bool.not_eq_true'] at hn
      rw [guardOperand, if_pos hn.1, if_neg (by simp [hn.2])]
      exact congrArg some (hg (u, name) List.mem_cons_self)
    | false =>
      rw [frontier_operator hn] at h
      split at h
      · next hop =>
        rw [isNonterm_mk] at hn
        rw [guardOperand]
        split
        · next hempty =>
          have hterm : G.isTerminal name = true := by simpa [hempty] using hn
          rw [if_pos hterm]
          exact congrArg some (beq_iff_eq.mpr hop.1)
        · have hop' : (Node.view covered).op u = name := hop.1
          rw [if_pos hop']
          exact emitPatternGuards_of_frontiers ps h hg
      · cases h

end

/-- **The guard of a pattern that fits holds** where all it leaves can be derived. -/
theorem guard_of_frontier {p : TreePattern} (hp : G.isNonterm p = false) {u : Node α} {goals : List (Goal α)}
    (h : frontier G p u = some goals) (hg : ∀ g ∈ goals, covered g.1 g.2 = true) :
    patternGuard G (Node.view covered) p u = some true := by
  rw [frontier_operator hp] at h
  split at h
  · next hop =>
    unfold patternGuard
    split
    · next hleaf => exact if_neg fun hc => hop.2 ⟨hleaf, hc⟩
    · have hlen : p.children.length ≤ ((Node.view covered).children u).length := frontiers_length h
      rw [if_pos hlen]
      exact emitPatternGuards_of_frontiers p.children h hg
  · cases h

end Frontier

theorem innerLeaves_sublist {ps : List TreePattern} {us : List (Node α)} {goals : List (Goal α)}
    (h : frontiers G ps us = some goals) : ∃ leaves, innerLeaves G ps us = some leaves ∧ leaves.Sublist goals := by
  induction ps generalizing us goals with
  | nil => exact ⟨[], rfl, List.nil_sublist _⟩
  | cons p ps ih =>
    cases us with
    | nil => cases h
    | cons u us =>
      rw [frontiers, Option.bind_eq_some_iff] at h
      obtain ⟨first, hfirst, h⟩ := h
      obtain ⟨rest, hrest, rfl⟩ := Option.map_eq_some_iff.mp h
      obtain ⟨leaves, hleaves, hsub⟩ := ih hrest
      simp only [innerLeaves, List.head?_cons, Option.map_some, List.tail_cons, hleaves]
      split
      · next hn =>
        rw [frontier_nonterm hn] at hfirst
        cases hfirst
        exact ⟨_, rfl, List.Sublist.append (List.Sublist.refl _) hsub⟩
      · exact ⟨_, rfl, hsub.trans (List.sublist_append_right _ _)⟩

theorem outerLeaves_sublist {ps : List TreePattern} {us : List (Node α)} {goals : List (Goal α)}
    (h : frontiers G ps us = some goals) :
    ∃ leaves, outerLeaves G Node.children ps us = some leaves ∧
      (leaves ++ (us.drop ps.length).map fun c => (c, G.startNonterm)).Sublist goals := by
  induction ps generalizing us goals with
  | nil =>
    rw [frontiers] at h
    cases h
    exact ⟨[], rfl, List.Sublist.refl _⟩
  | cons p ps ih =>
    cases us with
    | nil => cases h
    | cons u us =>
      rw [frontiers, Option.bind_eq_some_iff] at h
      obtain ⟨first, hfirst, h⟩ := h
      obtain ⟨rest, hrest, rfl⟩ := Option.map_eq_some_iff.mp h
      obtain ⟨leaves, hleaves, hsub⟩ := ih hrest
      simp only [outerLeaves, List.head?_cons, Option.map_some, Option.bind_some, List.tail_cons, hleaves,
        List.length_cons, List.drop_succ_cons]
      split
      · next hn =>
        rw [frontier_nonterm hn] at hfirst
        cases hfirst
        exact ⟨_, rfl, by simpa only [List.append_assoc] using List.Sublist.append (List.Sublist.refl _) hsub⟩
      · next hn =>
        split
        · exact ⟨_, rfl, hsub.trans (List.sublist_append_right _ _)⟩
        · rw [frontier_operator (by simpa using hn)] at hfirst
          split at hfirst
          · obtain ⟨inner, hinner, hinnerSub⟩ := innerLeaves_sublist hfirst
            rw [hinner]
            exact ⟨_, rfl, by simpa only [List.append_assoc] using List.Sublist.append hinnerSub hsub⟩
          · cases hfirst

/-- **What is visited is among what the pattern leaves to be derived**, in its order. -/
theorem visited_sublist {p : TreePattern} (hp : G.isNonterm p = false) {u : Node α} {goals : List (Goal α)}
    (h : frontier G p u = some goals) : ∃ vs, visited G Node.children p u = some vs ∧ vs.Sublist goals := by
  rw [frontier_operator hp] at h
  split at h
  · obtain ⟨leaves, hleaves, hsub⟩ := outerLeaves_sublist h
    refine ⟨leaves ++ extras G Node.children p u, ?_, hsub⟩
    unfold visited
    rw [hleaves, Option.map_some]
  · cases h

end Bbq.Burg
