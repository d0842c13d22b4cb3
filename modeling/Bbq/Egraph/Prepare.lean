import Bbq.Lib.Sweep
import Bbq.Egraph.Extract
import Bbq.Egraph.Store

/-!
# What the sweeps leave in the table

The live nodes that are not excluded, as the rules of `Bbq.Lib.Sweep`: a node derives its class from the classes
of its children.

* `ruleOf`: the rule of a node.
* `prepareNode_spec`: the body of the sweep tries one rule, and fails where a sum overflows.
* **`prepare_settles`**: if no sum overflows the loop ends, with the table settled. **`bounded_of_prepare`**: it
  ends only then.
-/

namespace Bbq.Egraph

open Bbq.Lib Bbq.Lib.Sweep

variable {cost : EgCostFn} {excl : Int × Int} {g g' : EGraph}

/-- The least value that a `long long` does not have. -/
def llongTop : Nat := 2 ^ 63

/-- The table as a function of classes. -/
def EgExtractPlan.costs (plan : EgExtractPlan) : Costs Nat :=
  { cost := fun c => plan.cost.getD c none, best := fun c => plan.best.getD c none }

/-- What a node costs its class, if it can be chosen. -/
def ruleOf (g : EGraph) (cost : EgCostFn) (excl : Int × Int) (i : Nat) : Option (Rule Nat) :=
  (g.nodes[i]?).bind fun n =>
    if n.live = true ∧ ¬ (n.op = excl.1 ∧ n.data = excl.2) then
      some { target := root g.parent n.cls, weight := cost n.op n.data, sources := n.kids.map (root g.parent) }
    else none

theorem ruleOf_some {i : Nat} {r : Rule Nat} (h : ruleOf g cost excl i = some r) :
    ∃ n : EgNode, g.nodes[i]? = some n ∧ n.live = true ∧ (n.op, n.data) ≠ excl ∧
      r = { target := root g.parent n.cls, weight := cost n.op n.data, sources := n.kids.map (root g.parent) } := by
  unfold ruleOf at h
  rw [Option.bind_eq_some_iff] at h
  obtain ⟨n, hn, h⟩ := h
  split at h
  · next hcond =>
    refine ⟨n, hn, hcond.1, fun heq => hcond.2 ?_, (Option.some.inj h).symm⟩
    rw [← heq]
    exact ⟨rfl, rfl⟩
  · cases h

theorem ruleOf_eq {i : Nat} {n : EgNode} (hn : g.nodes[i]? = some n) (hlive : n.live = true)
    (hexcl : (n.op, n.data) ≠ excl) :
    ruleOf g cost excl i =
      some { target := root g.parent n.cls, weight := cost n.op n.data, sources := n.kids.map (root g.parent) } := by
  unfold ruleOf
  rw [hn, Option.bind_some, if_pos]
  refine ⟨hlive, fun h => hexcl ?_⟩
  rw [h.1, h.2]

theorem ruleOf_same (hs : Same g g') : ruleOf g' cost excl = ruleOf g cost excl := by
  have hroot : root g'.parent = root g.parent := funext hs.halved.root
  funext i
  unfold ruleOf
  rw [hs.nodes, hroot]

theorem ruled (hg : Stored g) :
    Ruled (ruleOf g cost excl) g.nodes.length llongTop (List.range g.parent.length) where
  lt := fun i r hr => by
    obtain ⟨n, hn, -, -, -⟩ := ruleOf_some hr
    exact (List.getElem?_eq_some_iff.mp hn).1
  weight := fun i r hr => by
    obtain ⟨n, -, -, -, rfl⟩ := ruleOf_some hr
    exact lt_of_lt_of_le (cost n.op n.data).isLt (by decide)
  target := fun i r hr => by
    obtain ⟨n, hn, -, -, rfl⟩ := ruleOf_some hr
    exact List.mem_range.mpr (hg.grove.root_lt (hg.cls i n hn).1)

/-! ## One node -/

/-- The sum over the children, as a total: it is made if none of the sums on the way overflows. -/
theorem nodeCost_spec (hg : Grove g.parent) (plan : EgExtractPlan) (c : Nat) (kids : List Nat) :
    ((∀ s ∈ plan.costs.sums c (kids.map (root g.parent)), s < llongTop) →
      ∃ g', nodeCost plan.cost g c kids = some (plan.costs.total c (kids.map (root g.parent)), g') ∧ Same g g') ∧
    ((¬ ∀ s ∈ plan.costs.sums c (kids.map (root g.parent)), s < llongTop) → nodeCost plan.cost g c kids = none) := by
  induction kids generalizing g c with
  | nil => exact ⟨fun _ => ⟨g, rfl, .refl hg⟩, fun h => absurd (fun s hs => by cases hs) h⟩
  | cons kid kids ih =>
    have hfind := egFind_same hg kid
    have hroot : root (egFind g kid).2.parent = root g.parent := funext hfind.halved.root
    have hlookup : plan.costs.cost (root g.parent kid) = plan.cost.getD (root g.parent kid) none := rfl
    unfold nodeCost
    rw [List.map_cons]
    unfold Costs.total Costs.sums
    dsimp only
    rw [egFind_fst, hlookup]
    cases plan.cost.getD (root g.parent kid) none with
    | none => exact ⟨fun _ => ⟨_, rfl, hfind⟩, fun h => absurd (fun s hs => by cases hs) h⟩
    | some kc =>
      dsimp only
      obtain ⟨hfits, hover⟩ := ih hfind.halved.grove (c + kc)
      rw [hroot] at hfits hover
      by_cases hc : c + kc < 2 ^ 63
      · rw [if_pos hc]
        refine ⟨fun h => ?_, fun h => hover fun hrest => h fun s hs => ?_⟩
        · obtain ⟨g', hrun, hs⟩ := hfits fun s hs => h s (List.mem_cons_of_mem _ hs)
          exact ⟨g', hrun, hfind.trans hs⟩
        · rcases List.mem_cons.mp hs with rfl | hs
          · exact hc
          · exact hrest s hs
      · rw [if_neg hc]
        exact ⟨fun h => absurd (h _ List.mem_cons_self) hc, fun _ => rfl⟩

/-- What the sweeps keep: the graph but for finds, and tables of its size. -/
structure Prepared (g : EGraph) (s : Preparing) : Prop where
  same : Same g s.graph
  cost : s.plan.cost.length = g.parent.length
  best : s.plan.best.length = g.parent.length

theorem improves_iff {plan : EgExtractPlan} {cls c : Nat} :
    improves (plan.cost.getD cls none) c = true ↔ plan.costs.Improves cls c := by
  unfold improves Costs.Improves
  change _ ↔ ∀ old ∈ plan.cost.getD cls none, c < old
  cases plan.cost.getD cls none with
  | none => exact ⟨fun _ old hold => (by cases hold), fun _ => rfl⟩
  | some v =>
    rw [decide_eq_true_iff]
    refine ⟨fun h old hold => ?_, fun h => h v rfl⟩
    obtain rfl := Option.some.inj hold
    exact h

theorem getD_set {α : Type} (xs : List (Option α)) {i : Nat} (hi : i < xs.length) (v : Option α) :
    (fun j => (xs.set i v).getD j none) = Function.update (fun j => xs.getD j none) i v := by
  funext j
  by_cases hj : j = i
  · rw [hj, Function.update_self, List.getD_eq_getElem?_getD, List.getElem?_set_self hi, Option.getD_some]
  · rw [Function.update_of_ne hj, List.getD_eq_getElem?_getD, List.getElem?_set_ne (Ne.symm hj),
      List.getD_eq_getElem?_getD]

/-- Writing a class's entry. -/
theorem costs_set {plan : EgExtractPlan} {cls : Nat} (hcost : cls < plan.cost.length) (hbest : cls < plan.best.length)
    (c i : Nat) : EgExtractPlan.costs { cost := plan.cost.set cls (some c), best := plan.best.set cls (some i) } =
      plan.costs.put cls c i := by
  unfold EgExtractPlan.costs Costs.put
  dsimp only
  rw [getD_set _ hcost, getD_set _ hbest]

/-- What the body of the sweep makes of a rule. -/
def Tried (rules : Nat → Option (Rule Nat)) (g : EGraph) (s : Preparing) (i : Nat) (r : Option Preparing) : Prop :=
  ∃ s', r = some s' ∧ Prepared g s' ∧ s'.plan.costs = relax rules s.plan.costs i ∧
    (s'.improved = true ↔ s.improved = true ∨ relax rules s.plan.costs i ≠ s.plan.costs)

/-- Only finds have been run. -/
theorem Tried.idle {rules : Nat → Option (Rule Nat)} {s : Preparing} {i : Nat} (hs : Prepared g s)
    (h : relax rules s.plan.costs i = s.plan.costs) {graph : EGraph} (hsame : Same g graph) :
    Tried rules g s i (some { s with graph }) := by
  refine ⟨_, rfl, ⟨hsame, hs.cost, hs.best⟩, h.symm, ?_⟩
  rw [h]
  exact ⟨.inl, fun h => h.resolve_right fun hne => hne rfl⟩

/-- The body of the sweep at a node that cannot be chosen. -/
theorem prepareNode_of_none {s : Preparing} (hs : Prepared g s) {i : Nat} (h : ruleOf g cost excl i = none) :
    prepareNode cost excl s i = some s := by
  unfold prepareNode
  unfold ruleOf at h
  rw [hs.same.nodes]
  cases hn : g.nodes[i]? with
  | none => rfl
  | some n =>
    rw [hn, Option.bind_some] at h
    dsimp only
    by_cases hcond : n.live = true ∧ ¬ (n.op = excl.1 ∧ n.data = excl.2)
    · rw [if_pos hcond] at h
      cases h
    · by_cases hlive : n.live = true
      · rw [hlive, if_neg (by decide), if_pos (not_not.mp fun hne => hcond ⟨hlive, hne⟩)]
      · rw [if_pos (by simpa using hlive)]

/-- The body of the sweep at a node that can. -/
theorem prepareNode_of_some (hg : Stored g) {s : Preparing} (hs : Prepared g s) {i : Nat} {r : Rule Nat}
    (h : ruleOf g cost excl i = some r) :
    ((∀ v ∈ s.plan.costs.sums r.weight r.sources, v < llongTop) →
      Tried (ruleOf g cost excl) g s i (prepareNode cost excl s i)) ∧
    ((¬ ∀ v ∈ s.plan.costs.sums r.weight r.sources, v < llongTop) → prepareNode cost excl s i = none) := by
  obtain ⟨n, hn, hlive, hexcl, rfl⟩ := ruleOf_some h
  have hfind := egFind_same hs.same.halved.grove n.cls
  have hroot : root (egFind s.graph n.cls).2.parent = root g.parent :=
    (funext hfind.halved.root).trans (funext hs.same.halved.root)
  obtain ⟨hfits, hover⟩ := nodeCost_spec hfind.halved.grove s.plan (cost n.op n.data) n.kids
  rw [hroot] at hfits hover
  have hne : ¬ (n.op = excl.1 ∧ n.data = excl.2) := fun heq => hexcl (Prod.ext heq.1 heq.2)
  unfold prepareNode
  rw [hs.same.nodes, hn]
  dsimp only
  rw [hlive, if_neg (by decide), if_neg hne, egFind_fst, hs.same.halved.root]
  refine ⟨fun hfit => ?_, fun hnot => by rw [hover hnot]⟩
  obtain ⟨g', hrun, hsame⟩ := hfits hfit
  have hsame' := hs.same.trans (hfind.trans hsame)
  rw [hrun]
  cases htotal : s.plan.costs.total (cost n.op n.data) (n.kids.map (root g.parent)) with
  | none =>
    refine .idle hs (relax_of_none fun r hr => ?_) hsame'
    rw [h] at hr
    obtain rfl := Option.some.inj hr
    exact htotal
  | some c =>
    dsimp only
    by_cases himproves : s.plan.costs.Improves (root g.parent n.cls) c
    · have hlt : root g.parent n.cls < g.parent.length := hg.grove.root_lt (hg.cls i n hn).1
      have hrelax := relax_of_improves h htotal himproves
      rw [if_pos (improves_iff.mpr himproves)]
      refine ⟨_, rfl, ⟨hsame', List.length_set.trans hs.cost, List.length_set.trans hs.best⟩, ?_, ?_⟩
      · rw [hrelax]
        exact costs_set (hs.cost ▸ hlt) (hs.best ▸ hlt) c i
      · rw [hrelax]
        exact ⟨fun _ => .inr (put_ne himproves), fun _ => rfl⟩
    · rw [if_neg (mt improves_iff.mp himproves)]
      exact .idle hs (relax_of_not_improves h htotal himproves) hsame'

/-- **The body of the sweep** tries the rule of a node, unless a sum overflows. -/
theorem prepareNode_spec (hg : Stored g) {s : Preparing} (hs : Prepared g s) (i : Nat) :
    (Fits (ruleOf g cost excl) llongTop s.plan.costs i →
      Tried (ruleOf g cost excl) g s i (prepareNode cost excl s i)) ∧
    (¬ Fits (ruleOf g cost excl) llongTop s.plan.costs i → prepareNode cost excl s i = none) := by
  cases hr : ruleOf g cost excl i with
  | none =>
    have hnone : ∀ r, ruleOf g cost excl i ≠ some r := fun r h => by
      rw [hr] at h
      cases h
    rw [prepareNode_of_none hs hr]
    exact ⟨fun _ => .idle hs (relax_of_none fun r h => absurd h (hnone r)) hs.same,
      fun hnot => absurd (fun r h => absurd h (hnone r)) hnot⟩
  | some r =>
    obtain ⟨hfits, hover⟩ := prepareNode_of_some hg hs hr
    refine ⟨fun hfit => hfits (hfit r hr), fun hnot => hover fun hall => hnot fun r' hr' => ?_⟩
    rw [hr] at hr'
    obtain rfl := Option.some.inj hr'
    exact hall

/-! ## The loop -/

theorem prepare_sweeping (hg : Stored g) : Sweeping (ruleOf g cost excl) g.nodes.length llongTop (Prepared g)
    (fun s => s.plan.costs) Preparing.improved (prepareNode cost excl) (prepareRound cost excl) where
  refused := fun s i hs hnot => (prepareNode_spec hg hs i).2 hnot
  tried := fun s i hs hfits => (prepareNode_spec hg hs i).1 hfits
  sweep := fun s hs => by
    refine ⟨{ s with improved := false }, ⟨hs.same, hs.cost, hs.best⟩, rfl, rfl, ?_⟩
    unfold prepareRound
    rw [hs.same.nodes]

/-- Where the sweeps begin. -/
theorem prepared_empty (hg : Stored g) :
    Prepared g { graph := g, plan := { cost := List.replicate g.classes.length none
                                       best := List.replicate g.classes.length none }, improved := true } where
  same := .refl hg.grove
  cost := by rw [List.length_replicate, hg.classes]
  best := by rw [List.length_replicate, hg.classes]

theorem costs_empty (n : Nat) :
    EgExtractPlan.costs { cost := List.replicate n none, best := List.replicate n none } = Costs.empty := by
  have hnone : (fun c => (List.replicate n (none : Option Nat)).getD c none) = fun _ => none := by
    funext c
    rw [List.getD_eq_getElem?_getD, List.getElem?_replicate]
    split <;> rfl
  unfold EgExtractPlan.costs Costs.empty
  rw [hnone]

/-- **Where no sum overflows** the preparation ends, with the table settled. -/
theorem prepare_settles (hg : Stored g) (hbounded : Bounded (ruleOf g cost excl) g.nodes.length llongTop) :
    ∃ plan g', Settles (fun fuel => egExtractPrepare cost excl fuel g) (plan, g') ∧ Same g g' ∧
      plan.cost.length = g.parent.length ∧ Solved (ruleOf g cost excl) plan.costs := by
  obtain ⟨s, hsettles, hs, hsettled⟩ := sweeps_settle (ruled hg) (prepare_sweeping hg) hbounded (prepared_empty hg)
    (costs_empty g.classes.length)
  exact ⟨s.plan, s.graph, hsettles.map _, hs.same, hs.cost, hsettled⟩

/-- **It ends only where no sum overflows.** -/
theorem bounded_of_prepare (hg : Stored g) {fuel : Nat} {r : EgExtractPlan × EGraph}
    (h : egExtractPrepare cost excl fuel g = some r) : Bounded (ruleOf g cost excl) g.nodes.length llongTop := by
  unfold egExtractPrepare at h
  rw [Option.map_eq_some_iff] at h
  obtain ⟨s, hrun, -⟩ := h
  exact bounded_of_ended (ruled hg) (prepare_sweeping hg) (prepared_empty hg) (costs_empty g.classes.length) hrun

end Bbq.Egraph
