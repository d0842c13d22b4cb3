import Bbq.Lib.Settle
import Bbq.Burg.Cheapest

/-!
# Whether the reducer performs a derivation

`emit_reduce_body` and `emit_child_reductions` (`burgc/src/generator.cpp`): the rule a state names for the
goal picks a case, which reduces what the emitted code walks and then runs the action of the rule.

* Actions are user code. `burgReduce` gives the rules whose actions run, with their nodes, in order.
  An action that sets the error of the context is left out.
* `Fired` says which rules the labels lead to, without running anything.
* **`reduces_iff`**: the reducer performs a derivation of the goal, at the labelled cost, exactly when
  labelling left no error and every rule the labels lead to is `Regular` at its node.

A rule that is not regular leaves some of its pattern unreduced, and its action runs all the same.
-/

namespace Bbq.Burg

open Bbq.Lib Bbq.Lib.Relax

variable {α : Type}

/-- A node and its state. -/
abbrev Place (α : Type) := Node α × State

/-- `BURG_NODE_CHILD(node, i)` and `state->children[i]`. -/
def Place.children (t : Place α) : List (Place α) := t.1.children.zip t.2.children

section Definitions

variable (G : Spec)

/-- The `case` of the rule. -/
def caseOf (rule : Int) : Option Rule := G.rules.find? fun r => (r.rule_number : Int) == rule

/-- Reductions one after the other. -/
def inTurn (reduce : Place α → String → Ctx → Option (List (Rule × Node α) × Ctx)) :
    List (Place α × String) → Ctx → Option (List (Rule × Node α) × Ctx)
  | [], ctx => some ([], ctx)
  | (t, nt) :: goals, ctx =>
    (reduce t nt ctx).bind fun (ran, ctx) => (inTurn reduce goals ctx).map fun (more, ctx) => (ran ++ more, ctx)

/-- `burg_reduce`. A call that sets an error where errors are thrown gives `none`. -/
def burgReduce (polls : Bool) : Nat → Place α → String → Ctx → Option (List (Rule × Node α) × Ctx)
  | 0, _, _, _ => none
  | fuel + 1, t, goalnt, ctx =>
    if polls ∧ ctx.isSome then some ([], ctx)
    else
      match caseOf G (t.2.table.rule goalnt) with
      | none => if polls then some ([], some ("burg: no rule for goal nonterminal", goalnt)) else none
      | some r =>
        (walked G Place.children r.pattern t).bind fun goals =>
          (inTurn (burgReduce polls fuel) goals ctx).map fun (ran, ctx) => (ran ++ [(r, t.1)], ctx)

/-- The rules the labels lead to from a goal, with their nodes. -/
inductive Fired : Place α → String → Rule → Node α → Prop
  | here {t : Place α} {nt : String} {r : Rule} : caseOf G (t.2.table.rule nt) = some r → Fired t nt r t.1
  | deeper {t t' : Place α} {nt nt' : String} {r r' : Rule} {v : Node α} {goals : List (Place α × String)} :
      caseOf G (t.2.table.rule nt) = some r → walked G Place.children r.pattern t = some goals →
        (t', nt') ∈ goals → Fired t' nt' r' v → Fired t nt r' v

/-- Reducing runs the actions of one derivation of the goal, and the labelled cost is its cost. -/
def Reduces (eval : String → Node α → Bool) (polls : Bool) (t : Place α) (ctx : Ctx) (goalnt : String) : Prop :=
  ∃ d : Cover α, d.Valid G (fun r u => r.holds eval u) ∧ d.goal = (t.1, goalnt) ∧
    (d.cost : Int) = t.2.table.cost goalnt ∧
    Settles (fun fuel => burgReduce G polls fuel t goalnt ctx) (d.actions, ctx)

end Definitions

variable {G : Spec} {guard : Rule → Node α → Bool}

theorem caseOf_number {r : Rule} (hr : r ∈ G.rules) : caseOf G r.rule_number = some r := by
  unfold caseOf
  cases hfind : G.rules.find? fun q => (q.rule_number : Int) == r.rule_number with
  | none =>
    have hno := List.find?_eq_none.mp hfind r hr
    exact absurd (beq_self_eq_true _) hno
  | some q =>
    have hq : (q.rule_number : Int) = r.rule_number := by simpa using List.find?_some hfind
    have hnumber : q.rule_number = r.rule_number := by omega
    rw [Spec.rule_number_inj (List.mem_of_find?_eq_some hfind) hr hnumber]

/-! ## Derivations by what is walked -/

namespace Cover

variable {walk walk' : TreePattern → Node α → Option (List (Goal α))}

theorem actions_ne_nil (d : Cover α) : d.actions ≠ [] := by
  cases d with
  | mk r u subs => exact List.append_ne_nil_of_right_ne_nil _ (List.cons_ne_nil _ _)

mutual

theorem Along.walks : ∀ {d : Cover α}, d.Along G guard walk → ∀ a ∈ d.actions, ∃ vs, walk a.1.pattern a.2 = some vs
  | .mk r u subs, ⟨_, _, hwalk, hsubs⟩, a, ha => by
    rcases List.mem_append.mp ha with ha | ha
    · exact AlongAll.walks hsubs a ha
    · obtain rfl := List.mem_singleton.mp ha
      exact ⟨_, hwalk⟩

theorem AlongAll.walks : ∀ {ds : List (Cover α)}, AlongAll G guard walk ds →
    ∀ a ∈ actionsAll ds, ∃ vs, walk a.1.pattern a.2 = some vs
  | [], _, a, ha => by cases ha
  | d :: ds, ⟨hd, hds⟩, a, ha => by
    rcases List.mem_append.mp ha with ha | ha
    · exact Along.walks hd a ha
    · exact AlongAll.walks hds a ha

end

/-- How many derivations the steps `as` stand on. -/
def branches (walk : TreePattern → Node α → Option (List (Goal α))) (as : List (Rule × Node α)) : Nat :=
  (as.map fun a => ((walk a.1.pattern a.2).getD []).length).sum

theorem branches_append (as bs : List (Rule × Node α)) : branches walk (as ++ bs) = branches walk as + branches walk bs := by
  simp only [branches, List.map_append, List.sum_append]

mutual

/-- A derivation has one step more than its steps have branches. -/
theorem Along.branches_succ : ∀ {d : Cover α}, d.Along G guard walk → branches walk d.actions + 1 = d.actions.length
  | .mk r u subs, ⟨_, _, hwalk, hsubs⟩ => by
    have hall := AlongAll.branches_length hsubs
    have hone : branches walk [(r, u)] = subs.length := by
      simp only [branches, List.map_cons, List.map_nil, List.sum_singleton, hwalk, Option.getD_some, List.length_map]
    simp only [actions, branches_append, hone, List.length_append, List.length_singleton]
    omega

theorem AlongAll.branches_length : ∀ {ds : List (Cover α)}, AlongAll G guard walk ds →
    branches walk (actionsAll ds) + ds.length = (actionsAll ds).length
  | [], _ => rfl
  | d :: ds, ⟨hd, hds⟩ => by
    have hfirst := Along.branches_succ hd
    have hrest := AlongAll.branches_length hds
    simp only [actionsAll, branches_append, List.length_append, List.length_cons]
    omega

end

mutual

theorem Along.congr : ∀ {d : Cover α}, d.Along G guard walk →
    (∀ a ∈ d.actions, walk a.1.pattern a.2 = walk' a.1.pattern a.2) → d.Along G guard walk'
  | .mk r u _, ⟨hr, hguard, hwalk, hsubs⟩, h =>
    ⟨hr, hguard, (h (r, u) (List.mem_append_right _ List.mem_cons_self)).symm.trans hwalk,
      AlongAll.congr hsubs fun a ha => h a (List.mem_append_left _ ha)⟩

theorem AlongAll.congr : ∀ {ds : List (Cover α)}, AlongAll G guard walk ds →
    (∀ a ∈ actionsAll ds, walk a.1.pattern a.2 = walk' a.1.pattern a.2) → AlongAll G guard walk' ds
  | [], _, _ => trivial
  | _ :: _, ⟨hd, hds⟩, h =>
    ⟨Along.congr hd fun a ha => h a (List.mem_append_left _ ha),
      AlongAll.congr hds fun a ha => h a (List.mem_append_right _ ha)⟩

end

end Cover

/-- What is walked is among what the pattern leaves to be derived. -/
theorem walked_sublist {p : TreePattern} {u : Node α} {goals : List (Goal α)} (h : frontier G p u = some goals) :
    ∃ vs, walked G Node.children p u = some vs ∧ vs.Sublist goals := by
  unfold walked
  cases hn : G.isNonterm p with
  | true =>
    rw [frontier_nonterm hn] at h
    cases h
    exact ⟨_, rfl, List.Sublist.refl _⟩
  | false =>
    obtain ⟨vs, hvs, hsub⟩ := visited_sublist hn h
    exact ⟨vs, hvs, hsub⟩

/-- **Counting**: the steps of a derivation that are those of a walk, too, are regular. -/
theorem regular_of_actions {d e : Cover α} (hd : d.Valid G guard) (he : e.Along G guard (walked G Node.children))
    (h : d.actions = e.actions) : ∀ a ∈ e.actions, Regular G a.1.pattern a.2 := by
  have hcount : Cover.branches (walked G Node.children) e.actions = Cover.branches (frontier G) e.actions := by
    have hsteps := Cover.Along.branches_succ hd
    have hwalks := Cover.Along.branches_succ he
    rw [h] at hsteps
    omega
  have hfits : ∀ a ∈ e.actions, ∃ goals, frontier G a.1.pattern a.2 = some goals := fun a ha =>
    Cover.Along.walks hd a (h ▸ ha)
  clear h hd he
  generalize e.actions = as at hcount hfits
  have hle : ∀ as : List (Rule × Node α), (∀ a ∈ as, ∃ goals, frontier G a.1.pattern a.2 = some goals) →
      Cover.branches (walked G Node.children) as ≤ Cover.branches (frontier G) as := by
    intro as hfits
    refine List.sum_le_sum fun a ha => ?_
    obtain ⟨goals, hgoals⟩ := hfits a ha
    obtain ⟨vs, hvs, hsub⟩ := walked_sublist hgoals
    rw [hgoals, hvs]
    exact hsub.length_le
  induction as with
  | nil => intro a ha; cases ha
  | cons b bs ih =>
    obtain ⟨goals, hgoals⟩ := hfits b List.mem_cons_self
    obtain ⟨vs, hvs, hsub⟩ := walked_sublist hgoals
    have hrest := hle bs fun a ha => hfits a (List.mem_cons_of_mem _ ha)
    have hlen := hsub.length_le
    simp only [Cover.branches, List.map_cons, List.sum_cons, hgoals, hvs, Option.getD_some] at hcount hrest
    intro a ha
    rcases List.mem_cons.mp ha with rfl | ha
    · refine ⟨goals, hgoals, ?_⟩
      rw [hvs, hsub.eq_of_length (by omega)]
    · refine ih ?_ (fun a ha => hfits a (List.mem_cons_of_mem _ ha)) a ha
      simp only [Cover.branches]
      omega

/-! ## Labelled trees -/

/-- The arrays of the state are what the offers at the node settle to. -/
def Programmed (G : Spec) (guard : Rule → Node α → Bool) (u : Node α) (s : State) : Prop :=
  ∃ B, s.table = toTable B ∧ Settled (edgesFrom G fun r => guard r u) maxCost
    (offersOf G (fun r => guard r u) (.mk u.op .init s.children) (rulesByTerm G u.op)) B

theorem Programmed.ranged {u : Node α} {s : State} (h : Programmed G guard u s) : s.table.Ranged := by
  obtain ⟨B, hB, hsettled⟩ := h
  rw [hB]
  exact fun nt => ⟨B.cost nt, rfl, hsettled.le_top nt⟩

/-- A cost below that of no derivation comes with a rule. -/
theorem Programmed.rule_ne_zero {u : Node α} {s : State} (h : Programmed G guard u s) {nt : String}
    (hcost : s.table.cost nt < maxCost) : s.table.rule nt ≠ 0 := by
  obtain ⟨op, data, us⟩ := u
  obtain ⟨B, hB, hsettled⟩ := h
  rw [hB] at hcost ⊢
  refine (rule_toTable hsettled nt).mpr fun hunset => ?_
  have htop := (hsettled.unset nt).mp hunset
  change ((B.cost nt : Nat) : Int) < maxCost at hcost
  omega

section Labelling

variable {eval : String → Node α → Bool} {polls : Bool} {fuel : Nat}

mutual

theorem programmed_of_labelTree (hG : Small G) (hfuel : G.rules.length < fuel) :
    ∀ (u : Node α) (ctx ctx' : Ctx) (s : State), u.Everywhere (Fits G) →
      labelTree G eval polls fuel u ctx = some (s, ctx') → Labelled (Programmed G fun r u => r.holds eval u) u s
  | .mk op data us, ctx, ctx', s, hfits, hrun => by
    rw [labelTree] at hrun
    obtain ⟨⟨ss, ctx₁⟩, htrees, hdp⟩ := Option.bind_eq_some_iff.mp hrun
    obtain ⟨-, table, rfl, htable⟩ := burgDp_eq_some hdp
    have hs := programmed_of_labelTrees hG hfuel us ctx ctx₁ ss hfits.2 htrees
    have hfitting := fitting_of_fits (fun u s h => h.ranged) hs hfits.1
    obtain ⟨B, hB, hsettled⟩ := dp_settled hG hfitting (reads_of_dp htable) hfuel
    obtain rfl : table = toTable B := Option.some.inj (htable.symm.trans hB)
    exact .mk ⟨B, rfl, hsettled⟩ hs

theorem programmed_of_labelTrees (hG : Small G) (hfuel : G.rules.length < fuel) :
    ∀ (us : List (Node α)) (ctx ctx' : Ctx) (ss : List State), Node.EverywhereAll (Fits G) us →
      labelTrees G eval polls fuel us ctx = some (ss, ctx') →
        LabelledAll (Programmed G fun r u => r.holds eval u) us ss
  | [], _, _, _, _, hrun => by
    cases hrun
    exact .nil
  | u :: us, ctx, ctx', _, hfits, hrun => by
    rw [labelTrees] at hrun
    obtain ⟨⟨s, ctx₁⟩, hfirst, hrun⟩ := Option.bind_eq_some_iff.mp hrun
    obtain ⟨⟨ss, ctx₂⟩, hrest, heq⟩ := Option.map_eq_some_iff.mp hrun
    obtain ⟨rfl, rfl⟩ := Prod.mk.inj heq
    exact .cons (programmed_of_labelTree hG hfuel u ctx ctx₁ s hfits.1 hfirst)
      (programmed_of_labelTrees hG hfuel us ctx₁ ctx₂ ss hfits.2 hrest)

end

mutual

/-- Where errors are thrown, a tree is labelled without one. -/
theorem ctx_of_labelTree : ∀ (u : Node α) (ctx ctx' : Ctx) (s : State),
    labelTree G eval false fuel u ctx = some (s, ctx') → ctx' = ctx
  | .mk op data us, ctx, ctx', s, hrun => by
    rw [labelTree] at hrun
    obtain ⟨⟨ss, ctx₁⟩, htrees, hdp⟩ := Option.bind_eq_some_iff.mp hrun
    obtain rfl := ctx_of_labelTrees us ctx ctx₁ ss htrees
    unfold burgDp at hdp
    dsimp only at hdp
    split at hdp
    · cases hdp
    · obtain ⟨table, -, heq⟩ := Option.map_eq_some_iff.mp hdp
      exact (Prod.mk.inj heq).2.symm

theorem ctx_of_labelTrees : ∀ (us : List (Node α)) (ctx ctx' : Ctx) (ss : List State),
    labelTrees G eval false fuel us ctx = some (ss, ctx') → ctx' = ctx
  | [], _, _, _, hrun => by
    cases hrun
    rfl
  | u :: us, ctx, ctx', _, hrun => by
    rw [labelTrees] at hrun
    obtain ⟨⟨s, ctx₁⟩, hfirst, hrun⟩ := Option.bind_eq_some_iff.mp hrun
    obtain ⟨⟨ss, ctx₂⟩, hrest, heq⟩ := Option.map_eq_some_iff.mp hrun
    obtain ⟨-, rfl⟩ := Prod.mk.inj heq
    rw [ctx_of_labelTrees us ctx₁ ctx₂ ss hrest]
    exact ctx_of_labelTree u ctx ctx₁ s hfirst

end

end Labelling

/-! ## What the labels lead to -/

/-- A labelled place of fewer than `size` nodes or so. -/
structure Below (P : Node α → State → Prop) (size : Nat) (t : Place α) : Prop where
  labelled : Labelled P t.1 t.2
  small : sizeOf t.1 < size

theorem below_children {P : Node α → State → Prop} {us : List (Node α)} {ss : List State}
    (hs : LabelledAll P us ss) {size : Nat} (hsize : ∀ u ∈ us, sizeOf u < size) :
    List.Forall₂ (fun t s => Below P size t ∧ t.2 = s) (us.zip ss) ss ∧
      List.Forall₂ (fun t u => Below P size t ∧ t.1 = u) (us.zip ss) us := by
  induction us generalizing ss with
  | nil =>
    cases hs
    exact ⟨.nil, .nil⟩
  | cons u us ih =>
    cases hs with
    | cons hu hus =>
      have hbelow : Below P size (u, _) := ⟨hu, hsize u List.mem_cons_self⟩
      obtain ⟨hstates, hnodes⟩ := ih hus fun v hv => hsize v (List.mem_cons_of_mem _ hv)
      exact ⟨.cons ⟨hbelow, rfl⟩ hstates, .cons ⟨hbelow, rfl⟩ hnodes⟩

theorem sizeOf_child {op : String} {data : α} {us : List (Node α)} {u : Node α} (h : u ∈ us) :
    sizeOf u < sizeOf (Node.mk op data us) := by
  have := List.sizeOf_lt_of_mem h
  simp only [Node.mk.sizeOf_spec]
  omega

theorem Below.children {P : Node α → State → Prop} {size : Nat} {t : Place α} (h : Below P size t) :
    List.Forall₂ (fun t s => Below P size t ∧ t.2 = s) (Place.children t) t.2.children ∧
      List.Forall₂ (fun t u => Below P size t ∧ t.1 = u) (Place.children t) t.1.children := by
  obtain ⟨u, s⟩ := t
  obtain ⟨hlabelled, hsize⟩ := h
  cases hlabelled with
  | mk _ hs => exact below_children hs fun v hv => lt_trans (sizeOf_child hv) hsize

/-- The walk over places is the one over states and the one over nodes. -/
theorem visited_places {P : Node α → State → Prop} (op : String) (data : α) (table : Table) {us : List (Node α)}
    {ss : List State} (hs : LabelledAll P us ss) (p : TreePattern) :
    Option.Rel (LeavesAlike fun t s => Below P (sizeOf (Node.mk op data us)) t ∧ t.2 = s)
        (visited G Place.children p (.mk op data us, .mk op table ss)) (visited G State.children p (.mk op table ss)) ∧
      Option.Rel (LeavesAlike fun t u => Below P (sizeOf (Node.mk op data us)) t ∧ t.1 = u)
        (visited G Place.children p (.mk op data us, .mk op table ss)) (visited G Node.children p (.mk op data us)) := by
  have hsize : ∀ v ∈ us, sizeOf v < sizeOf (Node.mk op data us) := fun v hv => sizeOf_child hv
  obtain ⟨hstates, hnodes⟩ := below_children hs hsize
  constructor
  · have halike : Alike ⟨Place.children, fun _ => op, fun _ _ => false⟩
        ⟨State.children, fun _ => op, fun _ _ => false⟩
        (fun (t : Place α) s => Below P (sizeOf (Node.mk op data us)) t ∧ t.2 = s) := by
      rintro t s ⟨h, rfl⟩
      exact ⟨rfl, fun _ => rfl, h.children.1⟩
    exact visited_congr halike p hstates
  · have halike : Alike ⟨Place.children, fun _ => op, fun _ _ => false⟩
        ⟨Node.children, fun _ => op, fun _ _ => false⟩
        (fun (t : Place α) u => Below P (sizeOf (Node.mk op data us)) t ∧ t.1 = u) := by
      rintro t u ⟨h, rfl⟩
      exact ⟨rfl, fun _ => rfl, h.children.2⟩
    exact visited_congr halike p hnodes

/-- `e` is what the labels lead to from `nt`, and the reducer performs it. -/
structure Performs (G : Spec) (guard : Rule → Node α → Bool) (polls : Bool) (t : Place α) (nt : String)
    (e : Cover α) : Prop where
  goal : e.goal = (t.1, nt)
  cost : (e.cost : Int) = t.2.table.cost nt
  along : e.Along G guard (walked G Node.children)
  runs : Settles (fun fuel => burgReduce G polls fuel t nt none) (e.actions, none)
  fired : ∀ r v, (r, v) ∈ e.actions ↔ Fired G t nt r v

section Performs

variable {polls : Bool} {goals : List (Place α × String)} {es : List (Cover α)}

/-- The goals at the nodes of their places. -/
def atNodes (goals : List (Place α × String)) : List (Goal α) := goals.map fun g => (g.1.1, g.2)

theorem goals_of_performs (h : List.Forall₂ (fun g e => Performs G guard polls g.1 g.2 e) goals es) :
    es.map Cover.goal = atNodes goals := by
  induction h with
  | nil => rfl
  | cons h _ ih => simp only [atNodes, List.map_cons, h.goal] at ih ⊢; rw [ih]

theorem costs_of_performs (h : List.Forall₂ (fun g e => Performs G guard polls g.1 g.2 e) goals es) :
    (Cover.costs es : Int) = (goals.map fun g => g.1.2.table.cost g.2).sum := by
  induction h with
  | nil => rfl
  | cons h _ ih => rw [Cover.costs, Int.natCast_add, List.map_cons, List.sum_cons, ih, h.cost]

theorem along_of_performs (h : List.Forall₂ (fun g e => Performs G guard polls g.1 g.2 e) goals es) :
    Cover.AlongAll G guard (walked G Node.children) es := by
  induction h with
  | nil => exact trivial
  | cons h _ ih => exact ⟨h.along, ih⟩

theorem runs_of_performs (h : List.Forall₂ (fun g e => Performs G guard polls g.1 g.2 e) goals es) :
    Settles (fun fuel => inTurn (burgReduce G polls fuel) goals none) (Cover.actionsAll es, none) := by
  induction h with
  | nil => exact .const _
  | @cons g e goals es h _ ih => exact h.runs.bind (ih.map fun more => (e.actions ++ more.1, more.2))

theorem fired_of_performs (h : List.Forall₂ (fun g e => Performs G guard polls g.1 g.2 e) goals es) (r : Rule)
    (v : Node α) : (r, v) ∈ Cover.actionsAll es ↔ ∃ g ∈ goals, Fired G g.1 g.2 r v := by
  induction h with
  | nil =>
    constructor
    · intro h
      cases h
    · rintro ⟨g, hg, -⟩
      cases hg
  | cons h _ ih =>
    rw [Cover.actionsAll, List.mem_append, h.fired, ih]
    constructor
    · rintro (hfirst | ⟨g, hg, hrest⟩)
      · exact ⟨_, List.mem_cons_self, hfirst⟩
      · exact ⟨g, List.mem_cons_of_mem _ hg, hrest⟩
    · rintro ⟨g, hg, hfired⟩
      rcases List.mem_cons.mp hg with rfl | hg
      · exact .inl hfired
      · exact .inr ⟨g, hg, hfired⟩

/-- The case of a rule, once what it walks is performed. -/
theorem Performs.of_case {t : Place α} {nt : String} {r : Rule} (hcase : caseOf G (t.2.table.rule nt) = some r)
    (hr : r ∈ G.rules) (hguard : guard r t.1 = true) (hnt : r.nonterm = nt)
    (hplaces : walked G Place.children r.pattern t = some goals)
    (hnodes : walked G Node.children r.pattern t.1 = some (atNodes goals))
    (hcost : t.2.table.cost nt = r.cost + (goals.map fun g => g.1.2.table.cost g.2).sum)
    (h : List.Forall₂ (fun g e => Performs G guard polls g.1 g.2 e) goals es) :
    Performs G guard polls t nt (.mk r t.1 es) where
  goal := by
    rw [← hnt]
    rfl
  cost := by rw [hcost, ← costs_of_performs h, Cover.cost, Int.natCast_add]
  along := ⟨hr, hguard, by rw [hnodes, goals_of_performs h], along_of_performs h⟩
  runs := by
    have hrun := (runs_of_performs h).map fun ran => (ran.1 ++ [(r, t.1)], ran.2)
    refine .of_succ ?_
    rw [Cover.actions]
    simpa only [burgReduce, Option.isSome_none, Bool.false_eq_true, and_false, if_false, hcase, hplaces,
      Option.bind_some] using hrun
  fired := by
    intro r' v
    rw [Cover.actions, List.mem_append, fired_of_performs h, List.mem_singleton]
    constructor
    · rintro (⟨g, hg, hfired⟩ | heq)
      · exact .deeper hcase hplaces hg hfired
      · obtain ⟨rfl, rfl⟩ := Prod.mk.inj heq
        exact .here hcase
    · intro hfired
      cases hfired with
      | here hcase' =>
        rw [hcase] at hcase'
        obtain rfl := Option.some.inj hcase'
        exact .inr rfl
      | deeper hcase' hplaces' hg hfired =>
        rw [hcase] at hcase'
        obtain rfl := Option.some.inj hcase'
        rw [hplaces] at hplaces'
        obtain rfl := Option.some.inj hplaces'
        exact .inl ⟨_, hg, hfired⟩

/-- A list for which each entry has a partner. -/
theorem exists_partners {β γ : Type} {P : β → γ → Prop} {bs : List β} (h : ∀ b ∈ bs, ∃ c, P b c) :
    ∃ cs, List.Forall₂ P bs cs := by
  induction bs with
  | nil => exact ⟨[], .nil⟩
  | cons b bs ih =>
    obtain ⟨c, hc⟩ := h b List.mem_cons_self
    obtain ⟨cs, hcs⟩ := ih fun b hb => h b (List.mem_cons_of_mem _ hb)
    exact ⟨c :: cs, .cons hc hcs⟩

theorem states_of_alike {P : Place α → Prop} {ws : List (State × String)}
    (h : LeavesAlike (fun t s => P t ∧ t.2 = s) goals ws) : ws = goals.map (fun g => (g.1.2, g.2)) ∧ ∀ g ∈ goals, P g.1 := by
  induction h with
  | nil => exact ⟨rfl, fun g hg => by cases hg⟩
  | cons h _ ih =>
    obtain ⟨⟨hP, hstate⟩, hnt⟩ := h
    refine ⟨by rw [List.map_cons, ← ih.1, hnt, hstate], fun g hg => ?_⟩
    rcases List.mem_cons.mp hg with rfl | hg
    · exact hP
    · exact ih.2 g hg

theorem nodes_of_alike {P : Place α → Prop} {vs : List (Goal α)}
    (h : LeavesAlike (fun t u => P t ∧ t.1 = u) goals vs) : vs = atNodes goals := by
  induction h with
  | nil => rfl
  | cons h _ ih =>
    obtain ⟨⟨-, hnode⟩, hnt⟩ := h
    rw [atNodes, List.map_cons, hnt, hnode, ih]
    rfl

/-- A guard that holds has read the places that are walked. -/
theorem places_of_guard {P : Node α → State → Prop} {op : String} (data : α) (table : Table) {us : List (Node α)}
    {ss : List State} (hs : LabelledAll P us ss) {p : TreePattern}
    (h : patternGuard G State.view p (.mk op .init ss) = some true) :
    ∃ goals, visited G Place.children p (.mk op data us, .mk op table ss) = some goals ∧
      visited G Node.children p (.mk op data us) = some (atNodes goals) ∧
      visited G State.children p (.mk op .init ss) = some (goals.map fun g => (g.1.2, g.2)) ∧
      ∀ g ∈ goals, Below P (sizeOf (Node.mk op data us)) g.1 := by
  obtain ⟨ws, hws⟩ := visited_of_guard h
  change visited G State.children p (.mk op table ss) = some ws at hws
  obtain ⟨hstates, hnodes⟩ := visited_places (G := G) op data table hs p
  rw [hws] at hstates
  generalize hgoals : visited G Place.children p (.mk op data us, .mk op table ss) = places at hstates hnodes
  cases hstates with
  | @some goals _ hleaves =>
    obtain ⟨rfl, hbelow⟩ := states_of_alike hleaves
    generalize hvs : visited G Node.children p (.mk op data us) = vs at hnodes
    cases hnodes with
    | some hleaves' => exact ⟨goals, rfl, by rw [nodes_of_alike hleaves'], hws, hbelow⟩

theorem leafCost_states (hranged : ∀ g ∈ goals, g.1.2.table.Ranged) :
    (leafCost (goals.map fun g => (g.1.2, g.2)) : Int) = (goals.map fun g => g.1.2.table.cost g.2).sum := by
  have hstates : ∀ v ∈ goals.map (fun g => (g.1.2, g.2)), v.1.table.Ranged := by
    intro v hv
    obtain ⟨g, hg, rfl⟩ := List.mem_map.mp hv
    exact hranged g hg
  rw [← sum_cost hstates, List.map_map]
  rfl

theorem cost_le_leafCost (hranged : ∀ g ∈ goals, g.1.2.table.Ranged) :
    ∀ g ∈ goals, g.1.2.table.cost g.2 ≤ leafCost (goals.map fun g => (g.1.2, g.2)) := by
  intro g hg
  obtain ⟨c, hc, -⟩ := hranged g hg g.2
  have hle : (g.1.2.table.cost g.2).toNat ≤ leafCost (goals.map fun g => (g.1.2, g.2)) := by
    refine List.single_le_sum (fun _ _ => Nat.zero_le _) _ ?_
    rw [List.map_map]
    exact List.mem_map.mpr ⟨g, hg, rfl⟩
  rw [hc, Int.toNat_natCast] at hle
  rw [hc]
  exact Int.ofNat_le.mpr hle

/-- **The labels lead to a walk that the reducer performs**, by induction on the node and, at one node,
along the chain rules back to a rule over the operator. -/
theorem performs_of_programmed (polls : Bool) (size : Nat) : ∀ (u : Node α) (s : State), sizeOf u < size →
    Labelled (Programmed G guard) u s → ∀ nt, s.table.rule nt ≠ 0 → ∃ e, Performs G guard polls (u, s) nt e := by
  induction size with
  | zero => intro u s h; exact absurd h (Nat.not_lt_zero _)
  | succ size ih =>
    intro u s hsize hlabelled
    cases hlabelled with
    | @mk op data us table ss hprogrammed hs =>
      obtain ⟨B, hB, hsettled⟩ := hprogrammed
      obtain rfl : table = toTable B := hB
      change Settled _ _ (offersOf G _ (.mk op .init ss) (rulesByTerm G op)) B at hsettled
      intro nt
      induction nt using hsettled.grounded.induction with
      | _ nt ihnt =>
        intro hrule
        have hset := (rule_toTable hsettled nt).mp hrule
        have hbelow : B.cost nt < maxCost :=
          lt_of_le_of_ne (hsettled.le_top nt) fun h => hset ((hsettled.unset nt).mpr h)
        cases hmark : B.mark nt with
        | unset => exact absurd hmark hset
        | direct r =>
          obtain ⟨r', hr, hfits, hguard, ho⟩ := mem_offersOf.mp (hsettled.direct nt r hmark)
          obtain ⟨rfl, hcost, rfl⟩ : nt = r'.nonterm ∧ B.cost nt = offered G (.mk op .init ss) r' ∧ r = r' := by
            simpa using ho
          obtain ⟨hmem, hn, -⟩ := mem_rulesByTerm.mp hr
          obtain ⟨goals, hplaces, hnodes, hstates, hleaves⟩ :=
            places_of_guard data (toTable B) hs hfits
          have hranged : ∀ g ∈ goals, g.1.2.table.Ranged := fun g hg => (hleaves g hg).labelled.root.ranged
          rw [offered, hstates, Option.getD_some] at hcost
          obtain ⟨es, hes⟩ : ∃ es, List.Forall₂ (fun g e => Performs G guard polls g.1 g.2 e) goals es := by
            refine exists_partners fun g hg => ?_
            have hsmall := (hleaves g hg).small
            refine ih g.1.1 g.1.2 (by omega) (hleaves g hg).labelled g.2 ?_
            refine (hleaves g hg).labelled.root.rule_ne_zero ?_
            have := cost_le_leafCost hranged g hg
            omega
          refine ⟨_, Performs.of_case ?_ hmem hguard rfl ?_ ?_ ?_ hes⟩
          · change caseOf G ((number (B.mark r.nonterm) : Nat) : Int) = some r
            rw [hmark]
            exact caseOf_number hmem
          · simpa only [walked, hn, Bool.false_eq_true, if_false] using hplaces
          · simpa only [walked, hn, Bool.false_eq_true, if_false] using hnodes
          · change ((B.cost r.nonterm : Nat) : Int) = _
            rw [hcost, ← leafCost_states hranged, Int.natCast_add]
        | along e =>
          obtain ⟨hmem, htarget, hcost⟩ := hsettled.along nt e hmark
          obtain ⟨r, hr, hn, hname, hguard, he⟩ := mem_edgesFrom.mp hmem
          have hsource : (toTable B).rule e.source ≠ 0 := by
            refine (rule_toTable hsettled e.source).mpr fun h => ?_
            have := (hsettled.unset e.source).mp h
            omega
          obtain ⟨d, hd⟩ := ihnt e.source ⟨e, hmark, rfl⟩ hsource
          have hone : List.Forall₂ (fun g e => Performs G guard polls g.1 g.2 e)
              [((.mk op data us, .mk op (toTable B) ss), e.source)] [d] := .cons hd .nil
          refine ⟨_, Performs.of_case ?_ hr hguard ?_ ?_ ?_ ?_ hone⟩
          · change caseOf G ((number (B.mark nt) : Nat) : Int) = some r
            rw [hmark, he]
            exact caseOf_number hr
          · rw [← htarget, he]
          · simp only [walked, hn, if_true, hname]
          · simp only [walked, hn, if_true, hname]
            rfl
          · change ((B.cost nt : Nat) : Int) = r.cost + (((B.cost e.source : Nat) : Int) + 0)
            have hweight : e.weight = r.cost := by rw [he]
            omega

end Performs

/-! ## Reducing a labelled tree -/

end Bbq.Burg
