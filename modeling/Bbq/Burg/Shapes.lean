import Bbq.Burg.Dead

/-!
# Shapes that nothing covers

`report_missing_witnesses` of `burgc/src/completeness.cpp`, and what the states of the automaton are of trees. Texts are
left out.

* `Runs`: the automaton on a tree, from the leaves up, as long as every child may stand at its position.
  **`runs_spec`**: the bits are the nonterminals that the tree is covered by when no guard fails.
* **`uncovered_shapes`**: a shape is reported when, and only when, a tree of that shape is covered by nothing and each
  of its children is covered.

Every terminal is to have one number of operands. With two, the labeller lets a rule for the smaller one cover a node
that has more children, and the analysis does not.
-/

namespace Bbq.Burg.Completeness

open Bbq.Lib

variable {G : Spec} {order : TerminalArities G} {aut : Automaton} {α : Type} {b : NontermBits} {i j : Nat}

/-- `report_missing_witnesses`: the shapes it reports. -/
def uncoveredShapes (aut : Automaton) : List TransitionRecord :=
  aut.missing_witnesses.filter fun w => w.child_reps.zipIdx.all fun (r, i) =>
    (w.op.bind fun o => (aut.reps o i)[r]?.map Rep.any_covered_member).getD false

/-- Every terminal has a name and one number of operands. -/
structure Ranked (G : Spec) : Prop where
  arity : ∀ p ∈ rootArities G, ∀ q ∈ rootArities G, p.1 = q.1 → p.2 = q.2
  named : "" ∉ G.terminals

/-- A nonterminal covers the tree when no guard fails. -/
def Covered (G : Spec) (u : Node α) (nt : String) : Prop := ∃ c, Derives G (fun _ _ => true) u nt c

/-- Some nonterminal does. -/
def Labelled (G : Spec) (u : Node α) : Prop := ∃ nt, Covered G u nt

/-- **The automaton on a tree.** -/
inductive Runs (order : TerminalArities G) : Node α → StateKey → Prop
  | leaf {op : String} {data : α} (h : (op, 0) ∈ order.pairs) :
    Runs order (.mk op data []) { terminal := op, bits := (computeTransition G op []).1 }
  | node {op : OpInfo} {data : α} {us : List (Node α)} {keys : List StateKey} (hop : op ∈ opTable G none order)
    (hlength : us.length = op.dims.length) (hkeys : keys.length = op.dims.length)
    (henum : ∀ (d : Nat) (dim : OpDim) (key : StateKey), op.dims[d]? = some dim → keys[d]? = some key →
      enumerable dim key = true)
    (hruns : ∀ (d : Nat) (u : Node α) (key : StateKey), us[d]? = some u → keys[d]? = some key → Runs order u key) :
    Runs order (.mk op.term data us)
      { terminal := op.term, bits := (computeTransition G op.term (List.zipWith project op.dims keys)).1 }

/-! ## Trees of states -/

/-- Every state is that of a tree. -/
theorem Reached.tree {key : StateKey} (h : Reached none order key) : ∃ u : Node Unit, Runs order u key := by
  induction h with
  | leaf h => exact ⟨.mk _ () [], .leaf h⟩
  | @node op keys hop hlength henum _ ih =>
    have hpoint : ∀ key, ∃ u : Node Unit, key ∈ keys → Runs order u key := by
      intro key
      by_cases hkey : key ∈ keys
      · obtain ⟨u, hu⟩ := ih key hkey
        exact ⟨u, fun _ => hu⟩
      · exact ⟨.mk "" () [], fun h => absurd h hkey⟩
    choose tree htree using hpoint
    refine ⟨.mk op.term () (keys.map tree), .node hop (by rw [List.length_map, hlength]) hlength henum
      fun d u key hu hkey => ?_⟩
    rw [List.getElem?_map, hkey, Option.map_some] at hu
    obtain rfl := Option.some.inj hu
    exact htree key (List.mem_of_getElem? hkey)

/-- The state of a tree is reached. -/
theorem Runs.reached {u : Node α} {key : StateKey} (h : Runs order u key) : Reached none order key := by
  induction h with
  | leaf h => exact .leaf h
  | @node op data us keys hop hlength hkeys henum _ ih =>
    refine .node hop hkeys henum fun key hkey => ?_
    obtain ⟨d, hd⟩ := List.mem_iff_getElem?.mp hkey
    have hlt : d < us.length := by
      rw [hlength, ← hkeys]
      exact (List.getElem?_eq_some_iff.mp hd).1
    exact ih d _ key (List.getElem?_eq_getElem hlt) hd

theorem Runs.terminal {u : Node α} {key : StateKey} (h : Runs order u key) : key.terminal = u.op := by
  cases h <;> rfl

theorem Runs.arity {u : Node α} {key : StateKey} (h : Runs order u key) : (u.op, u.children.length) ∈ order.pairs := by
  cases h with
  | leaf h => exact h
  | node hop hlength _ _ _ =>
    show (_, _) ∈ order.pairs
    have := (opTable_arity hop).1
    rw [← hlength] at this
    exact this

/-! ## Covers of flat patterns -/

theorem derivesAll_covered {goals : List (Goal α)} :
    (∃ c, DerivesAll G (fun _ _ => true) goals c) ↔ ∀ g ∈ goals, Covered G g.1 g.2 := by
  induction goals with
  | nil => exact ⟨fun _ g hg => absurd hg List.not_mem_nil, fun _ => ⟨0, rfl⟩⟩
  | cons g goals ih =>
    obtain ⟨u, nt⟩ := g
    constructor
    · rintro ⟨c, c₁, c₂, hu, hrest, -⟩ g hg
      rcases List.mem_cons.mp hg with rfl | hg
      · exact ⟨c₁, hu⟩
      · exact ih.mp ⟨c₂, hrest⟩ g hg
    · intro hall
      obtain ⟨c₁, hu⟩ := hall (u, nt) List.mem_cons_self
      obtain ⟨c₂, hrest⟩ := ih.mpr fun g hg => hall g (List.mem_cons_of_mem _ hg)
      exact ⟨c₁ + c₂, c₁, c₂, hu, hrest, rfl⟩

theorem covered_iff {u : Node α} {nt : String} : Covered G u nt ↔ ∃ r ∈ G.rules, r.nonterm = nt ∧
    ∃ goals, frontier G r.pattern u = some goals ∧ ∀ g ∈ goals, Covered G g.1 g.2 := by
  constructor
  · rintro ⟨c, hc⟩
    obtain ⟨r, hr, hnt, -, goals, hgoals, c', hall, -⟩ := derives_iff.mp hc
    exact ⟨r, hr, hnt, goals, hgoals, derivesAll_covered.mp ⟨c', hall⟩⟩
  · rintro ⟨r, hr, hnt, goals, hgoals, hall⟩
    obtain ⟨c', hc'⟩ := derivesAll_covered.mpr hall
    exact ⟨r.cost + c', derives_iff.mpr ⟨r, hr, hnt, rfl, goals, hgoals, c', hc', rfl⟩⟩

theorem frontier_op {p : TreePattern} (hp : G.isNonterm p = false) {u : Node α}
    (hlength : p.children.length = u.children.length) (hop : u.op = p.name) :
    frontier G p u = frontiers G p.children u.children := by
  obtain ⟨name, children⟩ := p
  have hfull : ¬ (children.isEmpty = true ∧ G.hasOperandRule name = true ∧ u.children ≠ []) := by
    rintro ⟨hempty, -, hchildren⟩
    rw [show TreePattern.children (.mk name children) = children from rfl, List.isEmpty_iff.mp hempty] at hlength
    exact hchildren (List.length_eq_zero_iff.mp hlength.symm)
  unfold frontier
  rw [if_neg (not_chain hp), if_neg (not_not.mpr (show u.op = name from hop)), if_neg hfull]
  rfl

/-- What an operand asks of the child it lies on. -/
def OperandFits (G : Spec) (p : TreePattern) (u : Node α) : Prop :=
  (G.isNonterm p = true → Covered G u p.name) ∧ (G.isNonterm p = false → u.op = p.name)

/-- **Operands that are leaves**, on as many children. -/
theorem frontiers_covered (ps : List TreePattern) : ∀ {us : List (Node α)}, (∀ p ∈ ps, p.isLeaf = true) →
    ps.length = us.length → (∀ p ∈ ps, G.isNonterm p = false → ∀ u ∈ us, u.op = p.name → u.children = []) →
    ((∃ goals, frontiers G ps us = some goals ∧ ∀ g ∈ goals, Covered G g.1 g.2) ↔
      ∀ (k : Nat) (p : TreePattern) (u : Node α), ps[k]? = some p → us[k]? = some u → OperandFits G p u) := by
  induction ps with
  | nil =>
    intro us _ hlength _
    obtain rfl := List.length_eq_zero_iff.mp hlength.symm
    exact ⟨fun _ k p u hp => by simp at hp,
      fun _ => ⟨[], by unfold frontiers; rfl, fun g hg => absurd hg List.not_mem_nil⟩⟩
  | cons p ps ih =>
    intro us hleaves hlength hconstants
    cases us with
    | nil => cases hlength
    | cons u us =>
      have hrest := @ih us (fun q hq => hleaves q (List.mem_cons_of_mem _ hq)) (Nat.succ.inj hlength)
        (fun q hq hkind v hv => hconstants q (List.mem_cons_of_mem _ hq) hkind v (List.mem_cons_of_mem _ hv))
      have hfirst : (∃ goals, frontier G p u = some goals ∧ ∀ g ∈ goals, Covered G g.1 g.2) ↔ OperandFits G p u := by
        have hleaf : p.children = [] := List.isEmpty_iff.mp (hleaves p List.mem_cons_self)
        unfold OperandFits
        cases hkind : G.isNonterm p with
        | true =>
          rw [frontier_chain hkind]
          constructor
          · rintro ⟨goals, hgoals, hall⟩
            obtain rfl := Option.some.inj hgoals
            exact ⟨fun _ => hall (u, p.name) (List.mem_singleton_self _), fun h => (by cases h)⟩
          · rintro ⟨hcovered, -⟩
            refine ⟨_, rfl, fun g hg => ?_⟩
            obtain rfl := List.mem_singleton.mp hg
            exact hcovered rfl
        | false =>
          have hchildren := hconstants p List.mem_cons_self hkind u List.mem_cons_self
          constructor
          · rintro ⟨goals, hgoals, -⟩
            refine ⟨fun h => (by cases h), fun _ => ?_⟩
            by_contra hop
            rw [frontier_other hkind hop] at hgoals
            cases hgoals
          · rintro ⟨-, hop⟩
            have hnone := hchildren (hop rfl)
            rw [frontier_op hkind (by rw [hleaf, hnone]; rfl) (hop rfl), hleaf, hnone]
            exact ⟨[], by unfold frontiers; rfl, fun g hg => absurd hg List.not_mem_nil⟩
      constructor
      · rintro ⟨goals, hgoals, hall⟩ k q v hq hv
        unfold frontiers at hgoals
        rw [Option.bind_eq_some_iff] at hgoals
        obtain ⟨goals₁, hgoals₁, hgoals⟩ := hgoals
        obtain ⟨goals₂, hgoals₂, rfl⟩ := Option.map_eq_some_iff.mp hgoals
        cases k with
        | zero =>
          obtain rfl := Option.some.inj hq
          obtain rfl := Option.some.inj hv
          exact hfirst.mp ⟨goals₁, hgoals₁, fun g hg => hall g (List.mem_append_left _ hg)⟩
        | succ k =>
          exact hrest.mp ⟨goals₂, hgoals₂, fun g hg => hall g (List.mem_append_right _ hg)⟩ k q v hq hv
      · intro hall
        obtain ⟨goals₁, hgoals₁, hall₁⟩ := hfirst.mpr (hall 0 p u rfl rfl)
        obtain ⟨goals₂, hgoals₂, hall₂⟩ := hrest.mpr fun k q v hq hv => hall (k + 1) q v hq hv
        refine ⟨goals₁ ++ goals₂, ?_, fun g hg => ?_⟩
        · unfold frontiers
          rw [hgoals₁, Option.bind_some, hgoals₂, Option.map_some]
        · rcases List.mem_append.mp hg with hg | hg
          · exact hall₁ g hg
          · exact hall₂ g hg

/-! ## The bits of a tree -/

theorem transition_index (hG : Narrow G) {term : String} {tuple : List RepKey} (hi : 1 ≤ i)
    (h : has (computeTransition G term tuple).1 i = true) : ∃ nt, ntIndex G nt = some i := by
  cases (transition_spec hG hi).mp h with
  | base h =>
    obtain ⟨r, -, -, hindex⟩ := h
    exact ⟨r.nonterm, hindex⟩
  | step _ _ hto _ => exact ⟨_, hto⟩

theorem opTable_dims {schema : Option AsdlSchema} {op : OpInfo} (h : op ∈ opTable G schema order) {k : Nat} {dim : OpDim}
    (hdim : op.dims[k]? = some dim) : dim.matched = ruleDemand G op.term op.dims.length k := by
  unfold opTable at h
  obtain ⟨p, -, rfl⟩ := List.mem_map.mp h
  rw [List.getElem?_map, Option.map_eq_some_iff] at hdim
  obtain ⟨k', hk', rfl⟩ := hdim
  obtain ⟨-, rfl⟩ := List.getElem?_eq_some_iff.mp hk'
  rw [List.length_map, List.length_range, List.getElem_range]

section Trees

variable (haccepted : G.accepted = true) (hG : Narrow G) (hflat : Flat G) (hranked : Ranked G)

include haccepted hranked in
/-- A rule at the root of a tree has as many operands as the root has children. -/
theorem rule_arity {r : Rule} (hr : r ∈ G.rules) (hchain : G.isNonterm r.pattern = false) {op : String} {n : Nat}
    (hn : (op, n) ∈ order.pairs) (hname : r.pattern.name = op) : r.pattern.children.length = n :=
  hranked.arity _ (List.mem_map.mpr ⟨r, List.mem_filter.mpr ⟨hr, accepted_root haccepted hr hchain⟩, rfl⟩) _
    ((order.complete _).mp hn) hname

include hflat in
/-- An operand that is not a nonterminal is a terminal without operands. -/
theorem constant_operand (order : TerminalArities G) {r : Rule} (hr : r ∈ G.rules) {p : TreePattern}
    (hp : p ∈ r.pattern.children) (hkind : G.isNonterm p = false) : G.isTerminal p.name = true ∧ (p.name, 0) ∈ order.pairs := by
  unfold Spec.isNonterm at hkind
  rw [hflat.leaves r hr p hp, Bool.true_and, Bool.not_eq_false'] at hkind
  obtain ⟨q, hq, hname, hleaf⟩ := hflat.constants r hr p hp hkind
  refine ⟨hkind, (order.complete _).mpr (List.mem_map.mpr ⟨q, List.mem_filter.mpr ⟨hq, hname.symm ▸ hkind⟩, ?_⟩)⟩
  rw [hname, List.isEmpty_iff.mp hleaf, List.length_nil]

include hG hflat hranked in
/-- **What a rule sees of the classes** is what it sees of the states. -/
theorem ruleMatches_whole {op : OpInfo} (hop : op ∈ opTable G none order) {keys : List StateKey}
    (hkeys : keys.length = op.dims.length) {r : Rule} (hr : r ∈ G.rules) (hname : r.pattern.name = op.term)
    (hlength : r.pattern.children.length = op.dims.length) :
    ruleMatches G r op.term (List.zipWith project op.dims keys) = true ↔
      ∀ (k : Nat) (p : TreePattern) (key : StateKey), r.pattern.children[k]? = some p → keys[k]? = some key →
        operandMatches G p key.whole = true := by
  have hat : ∀ {k : Nat} {p : TreePattern}, r.pattern.children[k]? = some p →
      p ∈ operandsAt G op.term op.dims.length k := fun hp => mem_operandsAt hr hname hlength hp
  constructor
  · intro h k p key hp hkey
    unfold ruleMatches at h
    rw [Bool.and_eq_true, Bool.and_eq_true, List.all_eq_true] at h
    have hk : k < op.dims.length := hkeys ▸ (List.getElem?_eq_some_iff.mp hkey).1
    have hdim := List.getElem?_eq_getElem hk
    have hzip : (List.zipWith project op.dims keys)[k]? = some (project op.dims[k] key) := by
      rw [List.getElem?_zipWith, hdim, hkey]
    have hmatch := h.2 (p, project op.dims[k] key)
      (List.mem_of_getElem? (List.getElem?_zip_eq_some.mpr ⟨hp, hzip⟩))
    refine operandMatches_of_project (fun hkind hempty => ?_) hmatch
    have hterm := (constant_operand hflat order hr (List.mem_of_getElem? hp) hkind).1
    rw [hempty] at hterm
    exact hranked.named (by simpa [Spec.isTerminal] using hterm)
  · intro h
    refine ruleMatches_of hname (by rw [List.length_zipWith, hkeys, Nat.min_self, hlength]) fun k p key hp hkey => ?_
    rw [List.getElem?_zipWith] at hkey
    split at hkey
    · next dim key' hdim hkey' =>
      obtain rfl := Option.some.inj hkey
      exact operandMatches_project hG (hat hp) (opTable_dims hop hdim) (h k p key' hp hkey')
    · cases hkey

include haccepted hG in
/-- Bits worked out from the rules at the root are the nonterminals that cover the tree. -/
theorem transition_covers {u : Node α} {tuple : List RepKey} (hu : (u.op, u.children.length) ∈ order.pairs)
    (hranked : Ranked G) (hrules : ∀ r ∈ G.rules, G.isNonterm r.pattern = false → r.pattern.name = u.op →
      (ruleMatches G r u.op tuple = true ↔
        ∃ goals, frontiers G r.pattern.children u.children = some goals ∧ ∀ g ∈ goals, Covered G g.1 g.2))
    {nt : String} (hi : ntIndex G nt = some i) :
    has (computeTransition G u.op tuple).1 i = true ↔ Covered G u nt := by
  have hterm : G.isTerminal u.op = true := by
    obtain ⟨r, hr, heq⟩ := List.mem_map.mp ((order.complete _).mp hu)
    have := (List.mem_filter.mp hr).2
    rw [(Prod.mk.inj heq).1] at this
    exact this
  have hroot : ∀ r ∈ G.rules, r.pattern.name = u.op → G.isNonterm r.pattern = false := fun r _ hname => by
    unfold Spec.isNonterm
    rw [hname, hterm, Bool.not_true, Bool.and_false]
  have hrule : ∀ r ∈ G.rules, G.isNonterm r.pattern = false →
      (ruleMatches G r u.op tuple = true ↔
        ∃ goals, frontier G r.pattern u = some goals ∧ ∀ g ∈ goals, Covered G g.1 g.2) := by
    intro r hr hchain
    by_cases hname : r.pattern.name = u.op
    · rw [hrules r hr hchain hname, frontier_op hchain (rule_arity haccepted hranked hr hchain hu hname) hname.symm]
    · refine ⟨fun h => absurd (ruleMatches_name h) hname, ?_⟩
      rintro ⟨goals, hgoals, -⟩
      rw [frontier_other hchain (fun h => hname h.symm)] at hgoals
      cases hgoals
  rw [transition_spec hG (ntIndex_get hi).1]
  constructor
  · intro h
    induction h generalizing nt with
    | base h =>
      obtain ⟨r, hr, hmatch, hj⟩ := h
      have hchain := hroot r hr (ruleMatches_name hmatch)
      obtain ⟨goals, hgoals, hall⟩ := (hrule r hr hchain).mp hmatch
      exact covered_iff.mpr ⟨r, hr, ntIndex_inj hj hi, goals, hgoals, hall⟩
    | step hcr hfrom hto _ ih =>
      have hr := List.mem_filter.mp hcr
      refine covered_iff.mpr ⟨_, hr.1, ntIndex_inj hto hi, _, frontier_chain hr.2 u, fun g hg => ?_⟩
      obtain rfl := List.mem_singleton.mp hg
      exact ih hfrom
  · rintro ⟨c, d, hd, hgoal, -⟩
    have hboth := valid_induction (P := fun d : Cover α => Covered G d.node d.rule.nonterm ∧ (d.node = u →
        ∀ i, ntIndex G d.rule.nonterm = some i →
          Chained G (fun i => ∃ r ∈ G.rules, Produces G u.op tuple r i) i))
      (fun r v subs hr hfrontier hsubs => by
        have hall : ∀ g ∈ subs.map Cover.goal, Covered G g.1 g.2 := fun g hg => by
          obtain ⟨d', hd', rfl⟩ := List.mem_map.mp hg
          exact (hsubs d' hd').1
        refine ⟨covered_iff.mpr ⟨r, hr, rfl, _, hfrontier, hall⟩, fun hv j hj => ?_⟩
        obtain rfl : v = u := hv
        cases hchain : G.isNonterm r.pattern with
        | true =>
          rw [frontier_chain hchain] at hfrontier
          obtain ⟨d', rfl, hgoal'⟩ := List.map_eq_singleton_iff.mp (Option.some.inj hfrontier).symm
          have hsub := (hsubs d' (List.mem_singleton_self d')).2 (congrArg Prod.fst hgoal')
          rw [goal_eq hgoal'] at hsub
          have hcovered := (hsubs d' (List.mem_singleton_self d')).1
          obtain ⟨k, hk⟩ : ∃ k, ntIndex G r.pattern.name = some k := by
            obtain ⟨q, hq, hqnt, -⟩ := covered_iff.mp hcovered
            rw [goal_eq hgoal'] at hqnt
            rw [← hqnt]
            exact nonterm_index hq
          exact .step (List.mem_filter.mpr ⟨hr, hchain⟩) hk hj (hsub k hk)
        | false => exact .base ⟨r, hr, (hrule r hr hchain).mpr ⟨_, hfrontier, hall⟩, hj⟩) d hd
    refine hboth.2 (congrArg Prod.fst hgoal) i ?_
    rw [goal_eq hgoal]
    exact hi

/-- An operand matches a state as it fits the child whose state it is. -/
theorem operandMatches_iff {v : Node α} {key : StateKey} (hterminal : key.terminal = v.op)
    (hbits : ∀ {nt : String} {i : Nat}, ntIndex G nt = some i → (has key.bits i = true ↔ Covered G v nt))
    (p : TreePattern) : operandMatches G p key.whole = true ↔ OperandFits G p v := by
  unfold OperandFits
  cases hkind : G.isNonterm p with
  | true =>
    rw [operandMatches_nonterm hkind]
    constructor
    · rintro ⟨j, hj, hhas⟩
      exact ⟨fun _ => (hbits hj).mp hhas, fun h => (by cases h)⟩
    · rintro ⟨hcovered, -⟩
      obtain ⟨q, hq, hqnt, -⟩ := covered_iff.mp (hcovered rfl)
      obtain ⟨j, hj⟩ := nonterm_index hq
      rw [hqnt] at hj
      exact ⟨j, hj, (hbits hj).mpr (hcovered rfl)⟩
  | false =>
    rw [operandMatches_term hkind, show key.whole.terminal = v.op from hterminal]
    exact ⟨fun h => ⟨fun h => (by cases h), fun _ => h⟩, fun h => h.2 rfl⟩

include haccepted hG hflat hranked in
/-- **The bits of a tree** are the nonterminals that cover it when no guard fails. -/
theorem runs_spec {u : Node α} {key : StateKey} (h : Runs order u key) :
    ∀ {nt : String} {i : Nat}, ntIndex G nt = some i → (has key.bits i = true ↔ Covered G u nt) := by
  induction h with
  | @leaf op data hpair =>
    intro nt i hi
    refine transition_covers (u := .mk op data []) haccepted hG hpair hranked (fun r hr hchain hname => ?_) hi
    have hlength := rule_arity haccepted hranked hr hchain hpair hname
    have hnone := List.length_eq_zero_iff.mp hlength
    refine ⟨fun _ => ?_, fun _ => ruleMatches_of hname (by rw [hnone]; rfl) fun k p key hp => by
      rw [hnone] at hp
      simp at hp⟩
    rw [hnone]
    exact ⟨[], by unfold frontiers; rfl, fun g hg => absurd hg List.not_mem_nil⟩
  | @node op data us keys hop hlength hkeys henum hruns ih =>
    intro nt i hi
    have hpair : (op.term, us.length) ∈ order.pairs := by
      rw [hlength]
      exact (opTable_arity hop).1
    refine transition_covers (u := .mk op.term data us) haccepted hG hpair hranked (fun r hr hchain hname => ?_) hi
    have harity : r.pattern.children.length = us.length := rule_arity haccepted hranked hr hchain hpair hname
    rw [show Node.op (.mk op.term data us) = op.term from rfl, show Node.children (.mk op.term data us) = us from rfl,
      ruleMatches_whole hG hflat hranked hop hkeys hr hname (harity.trans hlength),
      frontiers_covered r.pattern.children (hflat.leaves r hr) harity (fun p hp hkind v hv hvop => by
        obtain ⟨k, hk⟩ := List.mem_iff_getElem?.mp hv
        have hlt : k < keys.length := by
          rw [hkeys, ← hlength]
          exact (List.getElem?_eq_some_iff.mp hk).1
        have hvpair := (hruns k v _ hk (List.getElem?_eq_getElem hlt)).arity
        have hzero := (constant_operand hflat order hr hp hkind).2
        have := hranked.arity _ ((order.complete _).mp hvpair) _ ((order.complete _).mp hzero) hvop
        exact List.length_eq_zero_iff.mp this)]
    have hfit : ∀ (k : Nat) (p : TreePattern) (v : Node α) (key : StateKey), us[k]? = some v → keys[k]? = some key →
        (operandMatches G p key.whole = true ↔ OperandFits G p v) := fun k p v key hv hkey =>
      operandMatches_iff (hruns k v key hv hkey).terminal (ih k v key hv hkey) p
    constructor
    · intro h k p v hp hv
      have hlt : k < keys.length := by
        rw [hkeys, ← hlength]
        exact (List.getElem?_eq_some_iff.mp hv).1
      exact (hfit k p v _ hv (List.getElem?_eq_getElem hlt)).mp (h k p _ hp (List.getElem?_eq_getElem hlt))
    · intro h k p key hp hkey
      have hlt : k < us.length := by
        rw [hlength, ← hkeys]
        exact (List.getElem?_eq_some_iff.mp hkey).1
      exact (hfit k p _ key (List.getElem?_eq_getElem hlt) hkey).mpr (h k p _ hp (List.getElem?_eq_getElem hlt))

include haccepted hG hflat hranked in
theorem operandMatches_fits {v : Node α} {key : StateKey} (h : Runs order v key) (p : TreePattern) :
    operandMatches G p key.whole = true ↔ OperandFits G p v :=
  operandMatches_iff h.terminal (runs_spec haccepted hG hflat hranked h) p

include haccepted hG hflat hranked in
/-- A tree is covered if its state has a bit. -/
theorem labelled_iff {u : Node α} {key : StateKey} (h : Runs order u key) : Labelled G u ↔ key.bits ≠ 0#64 := by
  rw [ne_zero_iff]
  constructor
  · rintro ⟨nt, hcovered⟩
    obtain ⟨r, hr, hnt, -⟩ := covered_iff.mp hcovered
    obtain ⟨i, hi⟩ := nonterm_index hr
    rw [hnt] at hi
    exact ⟨i, (ntIndex_get hi).1, hG.le hi, (runs_spec haccepted hG hflat hranked h hi).mpr hcovered⟩
  · rintro ⟨i, hi, -, hhas⟩
    obtain ⟨nt, hnt⟩ : ∃ nt, ntIndex G nt = some i := by
      cases h with
      | leaf _ => exact transition_index hG hi hhas
      | node _ _ _ _ _ => exact transition_index hG hi hhas
    exact ⟨nt, (runs_spec haccepted hG hflat hranked h hnt).mp hhas⟩

/-! ## Trees in place -/

/-- Every node has as many children as its terminal has operands, and every child is what some rule asks for there. -/
inductive InPlace (G : Spec) : Node α → Prop
  | mk {op : String} {data : α} {us : List (Node α)} (harity : (op, us.length) ∈ rootArities G)
    (hwanted : ∀ (d : Nat) (v : Node α), us[d]? = some v → ∃ p ∈ operandsAt G op us.length d, OperandFits G p v)
    (hbelow : ∀ v ∈ us, InPlace G v) : InPlace G (.mk op data us)

/-- Positions at which what may stand is what rules ask for. -/
theorem opTable_enumerated {op : OpInfo} (h : op ∈ opTable G none order) {k : Nat} {dim : OpDim}
    (hdim : op.dims[k]? = some dim) : dim.enumerated = ruleDemand G op.term op.dims.length k := by
  unfold opTable at h
  obtain ⟨p, -, rfl⟩ := List.mem_map.mp h
  rw [List.getElem?_map, Option.map_eq_some_iff] at hdim
  obtain ⟨k', hk', rfl⟩ := hdim
  obtain ⟨-, rfl⟩ := List.getElem?_eq_some_iff.mp hk'
  rw [List.length_map, List.length_range, List.getElem_range]
  rfl

include hG in
theorem matches_of_enumerable {key : StateKey} {dim : OpDim} {term : String} {arity k : Nat}
    (hdim : dim.enumerated = ruleDemand G term arity k) (h : enumerable dim key = true) :
    ∃ p ∈ operandsAt G term arity k, operandMatches G p key.whole = true := by
  unfold enumerable at h
  rw [Bool.or_eq_true, bne_iff_ne, hdim] at h
  rcases h with h | h
  · obtain ⟨i, hi, -, hhas⟩ := ne_zero_iff.mp h
    rw [has_and, Bool.and_eq_true] at hhas
    obtain ⟨p, hp, hkind, hindex⟩ := (ruleDemand_nts hG hi).mp hhas.2
    exact ⟨p, hp, (operandMatches_nonterm hkind _).mpr ⟨i, hindex, hhas.1⟩⟩
  · have hmem : key.terminal ∈ (ruleDemand G term arity k).accepted_terms := by simpa using h
    obtain ⟨p, hp, hkind, hname⟩ := (ruleDemand_terms hG).mp hmem
    exact ⟨p, hp, (operandMatches_term hkind _).mpr hname.symm⟩

include haccepted hG hflat hranked in
/-- **The automaton runs on the trees in place**, and on no others. -/
theorem inPlace_iff {u : Node α} : InPlace G u ↔ ∃ key, Runs order u key := by
  constructor
  · intro h
    induction h with
    | @mk op data us harity hwanted _ ih =>
      have hpair := (order.complete _).mpr harity
      by_cases hzero : us = []
      · subst hzero
        exact ⟨_, .leaf hpair⟩
      · obtain ⟨o, info, hget, rfl, hdims, hdemands⟩ := exists_op hpair fun h => hzero (List.length_eq_zero_iff.mp h)
        have hpoint : ∀ v, ∃ key : StateKey, v ∈ us → Runs order v key := by
          intro v
          by_cases hv : v ∈ us
          · obtain ⟨key, hkey⟩ := ih v hv
            exact ⟨key, fun _ => hkey⟩
          · exact ⟨{ terminal := "", bits := 0#64 }, fun h => absurd h hv⟩
        choose key hkey using hpoint
        have hkeys : (us.map key).length = info.dims.length := by rw [List.length_map, hdims]
        refine ⟨_, .node (List.mem_of_getElem? hget) hdims.symm hkeys (fun d dim k hdim hk => ?_) fun d v k hv hk => ?_⟩
        · rw [List.getElem?_map, Option.map_eq_some_iff] at hk
          obtain ⟨v, hv, rfl⟩ := hk
          obtain ⟨p, hp, hfits⟩ := hwanted d v hv
          exact enumerable_of_matches hG hp (hdemands d dim hdim).2
            ((operandMatches_fits haccepted hG hflat hranked (hkey v (List.mem_of_getElem? hv)) p).mpr hfits)
        · rw [List.getElem?_map, hv, Option.map_some] at hk
          obtain rfl := Option.some.inj hk
          exact hkey v (List.mem_of_getElem? hv)
  · rintro ⟨key, h⟩
    induction h with
    | @leaf op data hpair =>
      exact .mk ((order.complete _).mp hpair) (fun d v hv => by simp at hv) fun v hv => absurd hv List.not_mem_nil
    | @node op data us keys hop hlength hkeys henum hruns ih =>
      have hkey : ∀ {d : Nat} {v : Node α}, us[d]? = some v → ∃ key : StateKey, keys[d]? = some key := by
        intro d v hv
        have hlt : d < keys.length := by
          rw [hkeys, ← hlength]
          exact (List.getElem?_eq_some_iff.mp hv).1
        exact ⟨_, List.getElem?_eq_getElem hlt⟩
      refine .mk ?_ (fun d v hv => ?_) fun v hv => ?_
      · rw [hlength]
        exact (order.complete _).mp (opTable_arity hop).1
      · obtain ⟨key, hk⟩ := hkey hv
        have hd : d < op.dims.length := hlength ▸ (List.getElem?_eq_some_iff.mp hv).1
        have hdim := List.getElem?_eq_getElem hd
        obtain ⟨p, hp, hmatch⟩ := matches_of_enumerable hG (opTable_enumerated hop hdim) (henum d _ key hdim hk)
        rw [hlength]
        exact ⟨p, hp, (operandMatches_fits haccepted hG hflat hranked (hruns d v key hv hk) p).mp hmatch⟩
      · obtain ⟨d, hd⟩ := List.mem_iff_getElem?.mp hv
        obtain ⟨key, hk⟩ := hkey hd
        exact ih d v key hd hk

/-! ## What is reported -/

/-- A tree of the shape of a record: its children have states in the classes. -/
def Sits (order : TerminalArities G) (aut : Automaton) (w : TransitionRecord) (u : Node α) : Prop :=
  u.op = w.terminal ∧ w.child_reps.length = u.children.length ∧
    ∀ (d : Nat) (v : Node α), u.children[d]? = some v → ∃ (o : Nat) (rep : Rep) (s : Nat) (st : State), w.op = some o ∧
      (aut.reps o d)[w.child_reps.getD d 0]? = some rep ∧ s ∈ rep.members ∧ aut.states[s]? = some st ∧
        Runs order v st.key

theorem mem_uncoveredShapes {w : TransitionRecord} (h : Working none order aut) : w ∈ uncoveredShapes aut ↔
    w ∈ aut.transitions ∧ leadsNowhere aut w = true ∧ ∀ d r : Nat, w.child_reps[d]? = some r →
      ((w.op.bind fun o => (aut.reps o d)[r]?.map Rep.any_covered_member).getD false) = true := by
  unfold uncoveredShapes
  rw [h.sound.missing, List.mem_filter, List.mem_filter, List.all_eq_true, and_assoc]
  refine and_congr_right fun _ => and_congr_right fun _ => ⟨fun hall d r hr => ?_, fun hall x hx => ?_⟩
  · refine hall (r, d) (List.mem_iff_getElem?.mpr ⟨d, ?_⟩)
    rw [List.getElem?_zipIdx, hr, Option.map_some, Nat.zero_add]
  · obtain ⟨r, d⟩ := x
    obtain ⟨k, hk⟩ := List.mem_iff_getElem?.mp hx
    rw [List.getElem?_zipIdx, Option.map_eq_some_iff] at hk
    obtain ⟨r', hr', heq⟩ := hk
    rw [Nat.zero_add, Prod.mk.injEq] at heq
    obtain ⟨rfl, rfl⟩ := heq
    exact hall k r' hr'

theorem leadsNowhere_iff {w : TransitionRecord} {st : State} (hst : aut.states[w.dest]? = some st) :
    leadsNowhere aut w = true ↔ st.key.bits = 0#64 := by
  unfold leadsNowhere
  rw [hst, Option.map_some, beq_iff_eq, Option.some_inj]

include haccepted hG hflat hranked in
/-- **A reported shape** has a tree that nothing covers, on children that are covered. -/
theorem uncovered_sound (h : Working none order aut) {w : TransitionRecord} (hw : w ∈ uncoveredShapes aut) :
    ∃ u : Node Unit, Sits order aut w u ∧ InPlace G u ∧ (∀ v ∈ u.children, Labelled G v) ∧ ¬ Labelled G u := by
  obtain ⟨ht, hnowhere, hcovered⟩ := (mem_uncoveredShapes h).mp hw
  obtain ⟨st, hst, hkey, -⟩ := h.sound.leads w ht
  have hzero := (leadsNowhere_iff hst).mp hnowhere
  have hunlabelled : ∀ {u : Node Unit}, Runs order u st.key → ¬ Labelled G u := fun hu hlabelled =>
    (labelled_iff haccepted hG hflat hranked hu).mp hlabelled hzero
  have hplace : ∀ {u : Node Unit}, Runs order u st.key → InPlace G u := fun hu =>
    (inPlace_iff haccepted hG hflat hranked).mpr ⟨_, hu⟩
  rcases h.sound.shaped w ht with ⟨hop, hreps, hpair⟩ | ⟨o, op, hop, hget, hterm, hchosen⟩
  · have hu : Runs order (.mk w.terminal () []) st.key := by
      unfold keysOf at hkey
      rw [hop] at hkey
      rw [hkey]
      exact .leaf hpair
    exact ⟨_, ⟨rfl, by rw [hreps]; rfl, fun d v hv => by simp [Node.children] at hv⟩, hplace hu,
      fun v hv => absurd hv List.not_mem_nil, hunlabelled hu⟩
  · -- a covered member of each class, and a tree of its state
    have hpoint : ∀ d, ∃ (key : StateKey) (v : Node Unit), d < op.dims.length → ∃ (dim : OpDim) (r : Nat) (rep : Rep)
        (s : Nat) (st : State), op.dims[d]? = some dim ∧ w.child_reps[d]? = some r ∧ (aut.reps o d)[r]? = some rep ∧
          s ∈ rep.members ∧ aut.states[s]? = some st ∧ st.key = key ∧ enumerable dim key = true ∧
            project dim key = rep.key ∧ key.bits ≠ 0#64 ∧ Runs order v key := by
      intro d
      by_cases hd : d < op.dims.length
      · have hdim := List.getElem?_eq_getElem hd
        have hr := List.getElem?_eq_getElem (hchosen.1.symm ▸ hd)
        have hrep := List.getElem?_eq_getElem (hchosen.2 d _ hr)
        have hflag := hcovered d _ hr
        rw [hop, Option.bind_some, hrep, Option.map_some, Option.getD_some] at hflag
        have hfits := h.sound.classes hget hdim _ (List.mem_of_getElem? hrep)
        obtain ⟨s, hs, st, hst, hbits⟩ := hfits.covered.mp hflag
        obtain ⟨st', hst', henum, hproj⟩ := hfits.members s hs
        obtain rfl := Option.some.inj (hst.symm.trans hst')
        obtain ⟨v, hv⟩ := (h.sound.reached st (List.mem_of_getElem? hst)).tree
        exact ⟨st.key, v, fun _ => ⟨_, _, _, s, st, hdim, hr, hrep, hs, hst, rfl, henum, hproj, hbits, hv⟩⟩
      · exact ⟨{ terminal := "", bits := 0#64 }, .mk "" () [], fun h => absurd h hd⟩
    choose key tree hall using hpoint
    have htrees : ((List.range op.dims.length).map tree).length = op.dims.length := by
      rw [List.length_map, List.length_range]
    have hkeys : ((List.range op.dims.length).map key).length = op.dims.length := by
      rw [List.length_map, List.length_range]
    have hgetTree : ∀ {d : Nat} {v : Node Unit}, ((List.range op.dims.length).map tree)[d]? = some v →
        d < op.dims.length ∧ v = tree d := by
      intro d v hv
      have hd : d < op.dims.length := htrees ▸ (List.getElem?_eq_some_iff.mp hv).1
      rw [List.getElem?_map, List.getElem?_range hd, Option.map_some] at hv
      exact ⟨hd, (Option.some.inj hv).symm⟩
    have hgetKey : ∀ {d : Nat} {k : StateKey}, ((List.range op.dims.length).map key)[d]? = some k →
        d < op.dims.length ∧ k = key d := by
      intro d k hk
      have hd : d < op.dims.length := hkeys ▸ (List.getElem?_eq_some_iff.mp hk).1
      rw [List.getElem?_map, List.getElem?_range hd, Option.map_some] at hk
      exact ⟨hd, (Option.some.inj hk).symm⟩
    have hclasses : keysOf aut w = List.zipWith project op.dims ((List.range op.dims.length).map key) := by
      unfold keysOf
      rw [hop]
      refine List.ext_getElem? fun d => ?_
      show (keysFrom (aut.reps o) 0 _)[d]? = _
      rw [keysFrom_getElem?, List.getElem?_zipWith, List.getElem?_map, Nat.zero_add]
      by_cases hd : d < op.dims.length
      · obtain ⟨dim, r, rep, s, st, hdim, hr, hrep, -, -, -, -, hproj, -⟩ := hall d hd
        rw [hdim, hr, List.getElem?_range hd, Option.map_some, Option.map_some, hrep]
        simp [hproj]
      · have hd' : w.child_reps.length ≤ d := hchosen.1.symm ▸ not_lt.mp hd
        rw [List.getElem?_eq_none (not_lt.mp hd), List.getElem?_eq_none hd']
        rfl
    have hu : Runs order (.mk op.term () ((List.range op.dims.length).map tree)) st.key := by
      rw [hkey, hterm, hclasses]
      refine .node (h.sound.table ▸ List.mem_of_getElem? hget) htrees hkeys (fun d dim k hdim hk => ?_)
        fun d v k hv hk => ?_
      · obtain ⟨hd, rfl⟩ := hgetKey hk
        obtain ⟨dim', _, _, _, _, hdim', -, -, -, -, -, henum, -⟩ := hall d hd
        obtain rfl := Option.some.inj (hdim.symm.trans hdim')
        exact henum
      · obtain ⟨hd, rfl⟩ := hgetKey hk
        obtain ⟨-, rfl⟩ := hgetTree hv
        obtain ⟨_, _, _, _, _, -, -, -, -, -, -, -, -, -, hv⟩ := hall d hd
        exact hv
    refine ⟨.mk op.term () ((List.range op.dims.length).map tree),
      ⟨hterm.symm, hchosen.1.trans htrees.symm, fun d v hv => ?_⟩, hplace hu, fun v hv => ?_, hunlabelled hu⟩
    · obtain ⟨hd, rfl⟩ := hgetTree hv
      obtain ⟨_, r, rep, s, st', -, hr, hrep, hs, hst', hstkey, -, -, -, hruns⟩ := hall d hd
      refine ⟨o, rep, s, st', hop, ?_, hs, hst', by rw [hstkey]; exact hruns⟩
      rw [List.getD_eq_getElem?_getD, hr]
      exact hrep
    · obtain ⟨d, hd⟩ := List.mem_iff_getElem?.mp hv
      obtain ⟨hlt, rfl⟩ := hgetTree hd
      obtain ⟨_, _, _, _, _, -, -, -, -, -, -, -, -, hbits, hruns⟩ := hall d hlt
      exact (labelled_iff haccepted hG hflat hranked hruns).mpr hbits

include haccepted hG hflat hranked in
/-- **A tree that nothing covers**, on children that are covered, has its shape reported. -/
theorem uncovered_complete (h : Working none order aut) (hempty : aut.worklist = []) {u : Node α} (hu : InPlace G u)
    (hchildren : ∀ v ∈ u.children, Labelled G v) (hunlabelled : ¬ Labelled G u) :
    ∃ w ∈ uncoveredShapes aut, Sits order aut w u := by
  obtain ⟨key, hruns⟩ : ∃ key, Runs order u key := (inPlace_iff haccepted hG hflat hranked).mp hu
  have hzero : key.bits = 0#64 := by
    by_contra hne
    exact hunlabelled ((labelled_iff haccepted hG hflat hranked hruns).mpr hne)
  cases hruns with
  | @leaf op data hpair =>
    obtain ⟨t, ht, st, hop, hst, hkey, -⟩ := constant_state h hpair
    have hterm : t.terminal = op := by
      obtain ⟨st', hst', hkey', -⟩ := h.sound.leads t ht
      obtain rfl := Option.some.inj (hst.symm.trans hst')
      rw [hkey] at hkey'
      exact (StateKey.mk.inj hkey').1.symm
    have hreps : t.child_reps = [] := by
      rcases h.sound.shaped t ht with ⟨-, hreps, -⟩ | ⟨o, _, hop', -⟩
      · exact hreps
      · rw [hop] at hop'
        cases hop'
    refine ⟨t, (mem_uncoveredShapes h).mpr ⟨ht, (leadsNowhere_iff hst).mpr (by rw [hkey]; exact hzero), fun d r hr => ?_⟩,
      hterm.symm, by rw [hreps]; rfl, fun d v hv => ?_⟩
    · rw [hreps] at hr
      simp at hr
    · simp [Node.children] at hv
  | @node op data us keys hop hlength hkeys henum hbelow =>
    obtain ⟨o, ho⟩ := List.mem_iff_getElem?.mp (h.sound.table.symm ▸ hop)
    have hpoint : ∀ key, ∃ s : Nat, Reached none order key → ∃ st : State, aut.states[s]? = some st ∧ st.key = key := by
      intro key
      by_cases hkey : Reached none order key
      · obtain ⟨st, hst, heq⟩ := List.mem_map.mp ((h.states_iff hempty).mpr hkey)
        obtain ⟨s, hs⟩ := List.mem_iff_getElem?.mp hst
        exact ⟨s, fun _ => ⟨st, hs, heq⟩⟩
      · exact ⟨0, fun h => absurd h hkey⟩
    choose id hid using hpoint
    have hchild : ∀ {d : Nat} {k : StateKey}, keys[d]? = some k → ∃ v : Node α, us[d]? = some v ∧ Runs order v k := by
      intro d k hk
      have hd : d < us.length := by
        rw [hlength, ← hkeys]
        exact (List.getElem?_eq_some_iff.mp hk).1
      exact ⟨_, List.getElem?_eq_getElem hd, hbelow d _ k (List.getElem?_eq_getElem hd) hk⟩
    obtain ⟨t, ht, hto, hterm, htlength, htkeys, hmembers⟩ := h.transition hempty ho (keys.map id) keys
      (by rw [List.length_map, hkeys]) hkeys (fun d s k hs hk => by
        rw [List.getElem?_map, hk, Option.map_some] at hs
        obtain rfl := Option.some.inj hs
        obtain ⟨v, -, hv⟩ := hchild hk
        exact hid k hv.reached) henum
    obtain ⟨st, hst, hkey, -⟩ := h.sound.leads t ht
    rw [htkeys, hterm] at hkey
    -- the state of a child, in its class
    have hseat : ∀ {d : Nat} {v : Node α}, us[d]? = some v → ∃ (rep : Rep) (s : Nat) (st : State),
        (aut.reps o d)[t.child_reps.getD d 0]? = some rep ∧ s ∈ rep.members ∧ aut.states[s]? = some st ∧
          Runs order v st.key := by
      intro d v hv
      have hd : d < keys.length := by
        rw [hkeys, ← hlength]
        exact (List.getElem?_eq_some_iff.mp hv).1
      have hk := List.getElem?_eq_getElem hd
      have hvruns := hbelow d v _ hv hk
      obtain ⟨rep, hrep, hs⟩ := hmembers d (id keys[d]) (by rw [List.getElem?_map, hk, Option.map_some])
      obtain ⟨st', hst', hkey'⟩ := hid keys[d] hvruns.reached
      exact ⟨rep, _, st', hrep, hs, hst', by rw [hkey']; exact hvruns⟩
    refine ⟨t, (mem_uncoveredShapes h).mpr ⟨ht, (leadsNowhere_iff hst).mpr (by rw [hkey]; exact hzero), fun d r hr => ?_⟩,
      hterm.symm, htlength.trans hlength.symm, fun d v hv => ?_⟩
    · have hd : d < us.length := by
        rw [hlength, ← htlength]
        exact (List.getElem?_eq_some_iff.mp hr).1
      obtain ⟨rep, s, st', hrep, hs, hst', hvruns⟩ := hseat (List.getElem?_eq_getElem hd)
      rw [List.getD_eq_getElem?_getD, hr, Option.getD_some] at hrep
      rw [hto, Option.bind_some, hrep, Option.map_some, Option.getD_some]
      have hfits := h.sound.classes ho (List.getElem?_eq_getElem (hlength ▸ hd)) rep (List.mem_of_getElem? hrep)
      exact hfits.covered.mpr ⟨s, hs, st', hst', (labelled_iff haccepted hG hflat hranked hvruns).mp
        (hchildren _ (List.getElem_mem hd))⟩
    · obtain ⟨rep, s, st', hrep, hs, hst', hvruns⟩ := hseat hv
      exact ⟨o, rep, s, st', hto, hrep, hs, hst', hvruns⟩

end Trees

/-- **What is reported as uncovered**: the shapes of the trees that nothing covers though each child is covered, and no
others. -/
theorem uncovered_shapes (haccepted : G.accepted = true) (hG : Narrow G) (hflat : Flat G) (hranked : Ranked G)
    (order : TerminalArities G) : ∃ aut, Settles (buildAutomaton G none order) (some aut) ∧
      (∀ w ∈ uncoveredShapes aut, ∃ u : Node Unit, Sits order aut w u ∧ InPlace G u ∧ (∀ v ∈ u.children, Labelled G v) ∧
        ¬ Labelled G u) ∧
      ∀ {α : Type} (u : Node α), InPlace G u → (∀ v ∈ u.children, Labelled G v) → ¬ Labelled G u →
        ∃ w ∈ uncoveredShapes aut, Sits order aut w u := by
  obtain ⟨aut, hbuild, hworking, hempty⟩ := build_spec none order hG
  exact ⟨aut, hbuild, fun w hw => uncovered_sound haccepted hG hflat hranked hworking hw,
    fun {α} u hu hchildren hunlabelled =>
      uncovered_complete haccepted hG hflat hranked hworking hempty hu hchildren hunlabelled⟩

/-- A sum of an `a` and a `b`, in either order. -/
def mixed : Spec where
  terminals := ["A", "B", "ADD"]
  start := "sum"
  entries := []
  rules :=
    [⟨"sum", .mk "ADD" [.mk "a" [], .mk "b" []], 1, "", "", 1⟩,
     ⟨"sum", .mk "ADD" [.mk "b" [], .mk "a" []], 1, "", "", 2⟩,
     ⟨"a", .mk "A" [], 0, "", "", 3⟩,
     ⟨"b", .mk "B" [], 0, "", "", 4⟩]
  numbered := rfl

def mixedOrder : TerminalArities mixed where
  pairs := [("A", 0), ("B", 0), ("ADD", 2)]
  nodup := by decide
  complete := fun _ => ⟨fun h => (by decide : ∀ p ∈ [("A", 0), ("B", 0), ("ADD", 2)], p ∈ rootArities mixed) _ h,
    fun h => (by decide : ∀ p ∈ rootArities mixed, p ∈ [("A", 0), ("B", 0), ("ADD", 2)]) _ h⟩

theorem mixed_shapes : ∃ aut, Settles (buildAutomaton mixed none mixedOrder) (some aut) ∧
    (∀ w ∈ uncoveredShapes aut, ∃ u : Node Unit, Sits mixedOrder aut w u ∧ InPlace mixed u ∧
      (∀ v ∈ u.children, Labelled mixed v) ∧ ¬ Labelled mixed u) ∧
    ∀ {α : Type} (u : Node α), InPlace mixed u → (∀ v ∈ u.children, Labelled mixed v) → ¬ Labelled mixed u →
      ∃ w ∈ uncoveredShapes aut, Sits mixedOrder aut w u :=
  uncovered_shapes (by decide +kernel) (by decide) ⟨by decide, by decide⟩ ⟨by decide, by decide⟩ mixedOrder

example : (buildAutomaton mixed none mixedOrder 6).bind (fun built => built.map fun aut =>
    (uncoveredShapes aut).map fun w => (w.terminal, w.child_reps)) = some [("ADD", [0, 0]), ("ADD", [1, 1])] := by
  decide +kernel

end Bbq.Burg.Completeness
