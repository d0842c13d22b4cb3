import Mathlib.Algebra.Order.BigOperators.Group.List
import Mathlib.Algebra.Order.Group.Nat
import Mathlib.Data.Nat.Find
import Mathlib.Order.Bounds.Basic
import Bbq.Burg.Dp

/-!
# Whether the labels are those of cheapest covers

* `Exact u s`: the arrays of `s` name a rule for just the nonterminals that derive `u`, and give these
  the least cost of a derivation. `LabelsRight` asks it of every node of a tree once the tree is labelled.
* `Apt u` is about the grammar and the tree alone. Guards are read with what can be derived in place of
  what is labelled, and sums are taken over least costs. `Regular` rules at `u` are those for which the
  emitted code walks all that the pattern leaves to be derived; only the others can undercut.
* **`labels_right_iff`**: as long as the sums fit an `int`, the labels are right exactly when every node
  is apt.

The emitted cost of a rule leaves out the nonterminals below the operands of its operands, and the
children of nested operators beyond their operands: see `deep_leaf_uncounted`.
-/

namespace Bbq.Burg

open Bbq.Lib.Relax

variable {α : Type}

section Definitions

variable (G : Spec) (guard : Rule → Node α → Bool)

/-- The labels of one node are right. -/
structure Exact (u : Node α) (s : State) : Prop where
  rule : ∀ nt, s.table.rule nt ≠ 0 ↔ ∃ c, Derives G guard u nt c
  cost : ∀ nt c, IsLeast {c | Derives G guard u nt c} c → s.table.cost nt = c

mutual

/-- `P` holds of every node and its state. -/
inductive Labelled {α : Type} (P : Node α → State → Prop) : Node α → State → Prop
  | mk {op : String} {data : α} {us : List (Node α)} {table : Table} {ss : List State} :
      P (.mk op data us) (.mk op table ss) → LabelledAll P us ss → Labelled P (.mk op data us) (.mk op table ss)

inductive LabelledAll {α : Type} (P : Node α → State → Prop) : List (Node α) → List State → Prop
  | nil : LabelledAll P [] []
  | cons {u : Node α} {us : List (Node α)} {s : State} {ss : List State} :
      Labelled P u s → LabelledAll P us ss → LabelledAll P (u :: us) (s :: ss)

end

mutual

/-- `P` holds of every node of the tree. -/
def Node.Everywhere (P : Node α → Prop) : Node α → Prop
  | .mk op data us => P (.mk op data us) ∧ Node.EverywhereAll P us

def Node.EverywhereAll (P : Node α → Prop) : List (Node α) → Prop
  | [] => True
  | u :: us => u.Everywhere P ∧ Node.EverywhereAll P us

end

/-- The tree is labelled, and every label is right. -/
def LabelsRight (eval : String → Node α → Bool) (polls : Bool) (fuel : Nat) (u : Node α) : Prop :=
  ∃ s ctx, labelTree G eval polls fuel u none = some (s, ctx) ∧
    Labelled (Exact G fun r u => r.holds eval u) u s

open Classical in
/-- `nt` derives `u`. -/
noncomputable def derivable (u : Node α) (nt : String) : Bool := decide (∃ c, Derives G guard u nt c)

open Classical in
/-- The cost of a cheapest derivation, and `maxCost` where there is none. -/
noncomputable def leastCost (u : Node α) (nt : String) : Nat :=
  if h : ∃ c, Derives G guard u nt c then Nat.find h else maxCost

/-- The sum of the least costs of leaves. -/
noncomputable def leastCosts (vs : List (Goal α)) : Nat := (vs.map fun v => leastCost G guard v.1 v.2).sum

/-- The sum that the code emitted for the rule takes, over least costs. -/
noncomputable def emittedCost (r : Rule) (u : Node α) : Nat :=
  r.cost + leastCosts G guard ((visited G Node.children r.pattern u).getD [])

/-- The emitted walks reach all that the pattern leaves to be derived. -/
def Regular (p : TreePattern) (u : Node α) : Prop :=
  ∃ vs, frontier G p u = some vs ∧ walked G Node.children p u = some vs

/-- What the labels of `u` need. -/
structure Apt (polls : Bool) (u : Node α) : Prop where
  /-- No guard reads a child that is not there. -/
  reads : ∀ r ∈ rulesByTerm G u.op, ∃ b, patternGuard G (Node.view (derivable G guard)) r.pattern u = some b
  /-- Where an error is thrown, some rule is over the operator. -/
  known : polls = false → rulesByTerm G u.op ≠ []
  /-- Least costs stay below what stands for none. -/
  small : ∀ nt, (∃ c, Derives G guard u nt c) → leastCost G guard u nt < maxCost
  /-- A rule whose emitted code leaves something out does not undercut the derivations. -/
  dear : ∀ r ∈ rulesByTerm G u.op, ¬ Regular G r.pattern u → guard r u = true →
    patternGuard G (Node.view (derivable G guard)) r.pattern u = some true → emittedCost G guard r u < maxCost →
      ∃ c ≤ emittedCost G guard r u, Derives G guard u r.nonterm c

/-- The sums of costs at `u` fit an `int`. -/
def Fits (u : Node α) : Prop :=
  ∀ r ∈ rulesByTerm G u.op, ∀ vs, visited G Node.children r.pattern u = some vs → r.cost + maxCost * vs.length < 2 ^ 31

end Definitions

variable {G : Spec} {guard : Rule → Node α → Bool} {u : Node α} {nt : String}

/-! ## Least costs -/

theorem derivable_iff : derivable G guard u nt = true ↔ ∃ c, Derives G guard u nt c := by
  classical
  unfold derivable
  exact decide_eq_true_iff

theorem leastCost_le {c : Nat} (h : Derives G guard u nt c) : leastCost G guard u nt ≤ c := by
  classical
  have hex : ∃ c, Derives G guard u nt c := ⟨c, h⟩
  unfold leastCost
  rw [dif_pos hex]
  exact Nat.find_min' hex h

theorem derives_leastCost (h : ∃ c, Derives G guard u nt c) : Derives G guard u nt (leastCost G guard u nt) := by
  classical
  unfold leastCost
  rw [dif_pos h]
  exact Nat.find_spec h

theorem leastCost_of_not (h : ¬ ∃ c, Derives G guard u nt c) : leastCost G guard u nt = maxCost := by
  unfold leastCost
  exact dif_neg h

theorem isLeast_leastCost (h : ∃ c, Derives G guard u nt c) :
    IsLeast {c | Derives G guard u nt c} (leastCost G guard u nt) :=
  ⟨derives_leastCost h, fun _ hc => leastCost_le hc⟩

theorem derivesAll_leastCosts {vs : List (Goal α)} (h : ∀ v ∈ vs, ∃ c, Derives G guard v.1 v.2 c) :
    DerivesAll G guard vs (leastCosts G guard vs) := by
  induction vs with
  | nil => exact rfl
  | cons v vs ih =>
    refine ⟨leastCost G guard v.1 v.2, leastCosts G guard vs, derives_leastCost (h v List.mem_cons_self),
      ih fun w hw => h w (List.mem_cons_of_mem _ hw), ?_⟩
    simp only [leastCosts, List.map_cons, List.sum_cons]

theorem leastCosts_le {vs : List (Goal α)} {c : Nat} (h : DerivesAll G guard vs c) : leastCosts G guard vs ≤ c := by
  induction vs generalizing c with
  | nil => exact Nat.zero_le _
  | cons v vs ih =>
    obtain ⟨c₁, c₂, hv, hvs, rfl⟩ := h
    have hsum : leastCosts G guard (v :: vs) = leastCost G guard v.1 v.2 + leastCosts G guard vs := by
      simp only [leastCosts, List.map_cons, List.sum_cons]
    have := leastCost_le hv
    have := ih hvs
    omega

theorem derives_of_mem {vs : List (Goal α)} {c : Nat} (h : DerivesAll G guard vs c) :
    ∀ v ∈ vs, ∃ c, Derives G guard v.1 v.2 c := by
  induction vs generalizing c with
  | nil => intro v hv; cases hv
  | cons w vs ih =>
    obtain ⟨c₁, c₂, hw, hvs, -⟩ := h
    rintro v hv
    rcases List.mem_cons.mp hv with rfl | hv
    · exact ⟨c₁, hw⟩
    · exact ih hvs v hv

theorem leastCosts_sublist {vs ws : List (Goal α)} (h : vs.Sublist ws) :
    leastCosts G guard vs ≤ leastCosts G guard ws :=
  (h.map _).sum_le_sum fun _ _ => Nat.zero_le _

/-- Leaves that cost less than what stands for none can all be derived. -/
theorem derivable_of_leastCosts {vs : List (Goal α)} (h : leastCosts G guard vs < maxCost) :
    ∀ v ∈ vs, ∃ c, Derives G guard v.1 v.2 c := by
  intro v hv
  by_contra hnot
  have hle : leastCost G guard v.1 v.2 ≤ leastCosts G guard vs :=
    List.single_le_sum (fun _ _ => Nat.zero_le _) _ (List.mem_map.mpr ⟨v, hv, rfl⟩)
  rw [leastCost_of_not hnot] at hle
  omega

/-- A regular rule is as dear as its derivation. -/
theorem derives_emittedCost {r : Rule} (hr : r ∈ rulesByTerm G u.op) (hguard : guard r u = true)
    (hreg : Regular G r.pattern u) (h : emittedCost G guard r u < maxCost) :
    Derives G guard u r.nonterm (emittedCost G guard r u) := by
  obtain ⟨hr, hroot⟩ := mem_rulesByTerm.mp hr
  obtain ⟨vs, hfrontier, hvisited⟩ := hreg
  rw [walked, hroot.1] at hvisited
  simp only [Bool.false_eq_true, if_false] at hvisited
  unfold emittedCost at h ⊢
  rw [hvisited, Option.getD_some] at h ⊢
  exact derives_iff.mpr ⟨r, hr, rfl, hguard, vs, hfrontier, _,
    derivesAll_leastCosts (derivable_of_leastCosts (by omega)), rfl⟩

/-! ## The arrays of a state -/

/-- The arrays are as the rest of the tree needs them. -/
structure Matches (G : Spec) (guard : Rule → Node α → Bool) (u : Node α) (s : State) : Prop where
  rule : ∀ nt, s.table.rule nt ≠ 0 ↔ ∃ c, Derives G guard u nt c
  cost : ∀ nt, s.table.cost nt = leastCost G guard u nt
  le_max : ∀ nt, leastCost G guard u nt ≤ maxCost

theorem Matches.ranged {s : State} (h : Matches G guard u s) : s.table.Ranged :=
  fun nt => ⟨_, h.cost nt, h.le_max nt⟩

theorem Matches.exact {s : State} (h : Matches G guard u s) : Exact G guard u s where
  rule := h.rule
  cost := fun nt c hc => by
    rw [h.cost nt, (isLeast_leastCost ⟨c, hc.1⟩).unique hc]

mutual

theorem Labelled.imp {P Q : Node α → State → Prop} (h : ∀ u s, P u s → Q u s) :
    ∀ {u : Node α} {s : State}, Labelled P u s → Labelled Q u s
  | _, _, .mk hp hs => .mk (h _ _ hp) (hs.imp h)

theorem LabelledAll.imp {P Q : Node α → State → Prop} (h : ∀ u s, P u s → Q u s) :
    ∀ {us : List (Node α)} {ss : List State}, LabelledAll P us ss → LabelledAll Q us ss
  | _, _, .nil => .nil
  | _, _, .cons hu hus => .cons (hu.imp h) (hus.imp h)

end

theorem Labelled.root {P : Node α → State → Prop} {u : Node α} {s : State} (h : Labelled P u s) : P u s := by
  cases h with
  | mk hp _ => exact hp

theorem LabelledAll.forall₂ {P : Node α → State → Prop} :
    ∀ {us : List (Node α)} {ss : List State}, LabelledAll P us ss → List.Forall₂ (Labelled P) us ss
  | _, _, .nil => .nil
  | _, _, .cons hu hus => .cons hu hus.forall₂

/-- A guard reads the same of the labels as of what can be derived. -/
theorem alike_matches :
    Alike (Node.view (derivable G guard)) State.view (Labelled (Matches G guard)) := by
  intro u s h
  cases h with
  | mk hp hs =>
    refine ⟨rfl, fun nt => ?_, hs.forall₂⟩
    rw [Bool.eq_iff_iff]
    exact derivable_iff.trans ((hp.rule nt).symm.trans decide_eq_true_iff.symm)

section Node

variable {op : String} {data : α} {us : List (Node α)} {ss : List State}

theorem patternGuard_matches (data : α) (hs : LabelledAll (Matches G guard) us ss) (p : TreePattern) :
    patternGuard G State.view p (.mk op .init ss) =
      patternGuard G (Node.view (derivable G guard)) p (.mk op data us) :=
  (patternGuard_congr alike_matches p hs.forall₂).symm

theorem cost_matches {v : Node α} {s : State} (h : Labelled (Matches G guard) v s) (nt : String) :
    s.table.cost nt = leastCost G guard v nt ∧ leastCost G guard v nt ≤ maxCost := by
  exact ⟨h.root.cost nt, h.root.le_max nt⟩

theorem leafCost_matches {vs : List (Goal α)} {ws : List (State × String)}
    (h : LeavesAlike (Labelled (Matches G guard)) vs ws) : leafCost ws = leastCosts G guard vs := by
  induction h with
  | nil => rfl
  | cons hv _ ih =>
    simp only [leafCost, leastCosts, List.map_cons, List.sum_cons] at ih ⊢
    rw [ih, ← hv.2, (cost_matches hv.1 _).1, Int.toNat_natCast]

/-- The same is visited in a tree and in its states. -/
theorem visited_labelled {P : Node α → State → Prop} (op : String) (data : α) (table : Table)
    (hs : LabelledAll P us ss) (p : TreePattern) :
    Option.Rel (LeavesAlike (Labelled P)) (visited G Node.children p (.mk op data us))
      (visited G State.children p (.mk op table ss)) := by
  have halike : Alike ⟨Node.children, Node.op, fun _ _ => false⟩ ⟨State.children, State.op, fun _ _ => false⟩
      (Labelled P) := by
    intro u s h
    cases h with
    | mk _ hs => exact ⟨rfl, fun _ => rfl, hs.forall₂⟩
  exact visited_congr halike p hs.forall₂

/-- What a rule costs at the state is what is emitted, on least costs. -/
theorem offered_matches (data : α) (hs : LabelledAll (Matches G guard) us ss) (r : Rule) :
    offered G (.mk op .init ss) r = emittedCost G guard r (.mk op data us) := by
  have hrel := visited_labelled (G := G) op data .init hs r.pattern
  unfold offered emittedCost
  generalize visited G Node.children r.pattern (.mk op data us) = vs at hrel
  generalize visited G State.children r.pattern (.mk op .init ss) = ws at hrel
  cases hrel with
  | none => rfl
  | some h => rw [Option.getD_some, Option.getD_some, leafCost_matches h]

theorem ranged_leaves {P : Node α → State → Prop} (hP : ∀ u s, P u s → s.table.Ranged) {vs : List (Goal α)}
    {ws : List (State × String)} (h : LeavesAlike (Labelled P) vs ws) : ∀ w ∈ ws, w.1.table.Ranged := by
  induction h with
  | nil => intro w hw; cases hw
  | cons hv _ ih =>
    intro w hw
    rcases List.mem_cons.mp hw with rfl | hw
    · exact hP _ _ hv.1.root
    · exact ih w hw

theorem fitting_of_fits {P : Node α → State → Prop} (hP : ∀ u s, P u s → s.table.Ranged)
    (hs : LabelledAll P us ss) (hfits : Fits G (.mk op data us)) :
    ∀ r ∈ rulesByTerm G op, Fitting G (.mk op .init ss) r := by
  intro r hr
  have hrel := visited_labelled (G := G) op data .init hs r.pattern
  have hsum := hfits r hr
  generalize visited G Node.children r.pattern (.mk op data us) = vs at hrel hsum
  constructor
  · intro ws hws
    rw [hws] at hrel
    cases hrel with
    | some h => exact ranged_leaves hP h
  · intro ws hws
    rw [hws] at hrel
    cases hrel with
    | some h =>
      have := hsum _ rfl
      rwa [h.length_eq] at this

/-! ## One node -/

variable {eval : String → Node α → Bool}

section Settled

variable {B : Best String Rule}
  (hs : LabelledAll (Matches G guard) us ss)
  (hB : Settled (edgesFrom G fun r => guard r (.mk op data us)) maxCost
    (offersOf G (fun r => guard r (.mk op data us)) (.mk op .init ss) (rulesByTerm G op)) B)

include hs hB

/-- No derivation is cheaper than what is kept. -/
theorem kept_le (d : Cover α) (hd : d.Valid G guard) (hnode : d.node = .mk op data us) :
    B.cost d.rule.nonterm ≤ d.cost := by
  induction hsize : sizeOf d using Nat.strong_induction_on generalizing d with
  | h n ih =>
    obtain ⟨r, v, subs⟩ := d
    obtain rfl : v = .mk op data us := hnode
    obtain ⟨hr, hguard, hfrontier, hsubs⟩ := hd
    change B.cost r.nonterm ≤ r.cost + Cover.costs subs
    cases hn : G.isNonterm r.pattern with
    | true =>
      rw [frontier_nonterm hn, Option.some.injEq] at hfrontier
      obtain ⟨d, rfl⟩ : ∃ d, subs = [d] := List.length_eq_one_iff.mp (by simpa using (congrArg List.length hfrontier).symm)
      obtain ⟨hnode, hnt⟩ := Prod.mk.inj (List.cons_eq_cons.mp hfrontier).1
      have hless : sizeOf d < n := by
        rw [← hsize]
        simp only [Cover.mk.sizeOf_spec, List.cons.sizeOf_spec]
        omega
      have hkept := ih _ hless d hsubs.1 hnode.symm rfl
      have hclosed := hB.closed r.pattern.name _ (mem_edgesFrom.mpr ⟨r, hr, hn, rfl, hguard, rfl⟩)
      change B.cost r.nonterm ≤ B.cost r.pattern.name + r.cost at hclosed
      rw [← hnt] at hkept
      change B.cost r.nonterm ≤ r.cost + (d.cost + 0)
      omega
    | false =>
      have hall := derivesAll_iff.mpr ⟨subs, hsubs, rfl, rfl⟩
      obtain ⟨vs, hvs, hsub⟩ := visited_sublist hn hfrontier
      have hfits : patternGuard G (Node.view (derivable G guard)) r.pattern (.mk op data us) = some true :=
        guard_of_frontier hn hfrontier fun g hg => derivable_iff.mpr (derives_of_mem hall g hg)
      rw [← patternGuard_matches data hs] at hfits
      rw [frontier_operator hn] at hfrontier
      split at hfrontier
      · next hop =>
        have hmem : r ∈ rulesByTerm G op := mem_rulesByTerm.mpr ⟨hr, hn, hop.1.symm⟩
        have hoffered := hB.offered _ (mem_offersOf.mpr ⟨r, hmem, hfits, hguard, rfl⟩)
        change B.cost r.nonterm ≤ offered G (.mk op .init ss) r at hoffered
        rw [offered_matches data hs, emittedCost, hvs, Option.getD_some] at hoffered
        have hle : leastCosts G guard vs ≤ leastCosts G guard (subs.map Cover.goal) := leastCosts_sublist hsub
        have hcosts := leastCosts_le hall
        omega
      · cases hfrontier

/-- What is kept is the cost of some derivation, if no rule over the operator undercuts. -/
theorem kept_derives (hapt : ∀ r ∈ rulesByTerm G op, guard r (.mk op data us) = true →
      patternGuard G (Node.view (derivable G guard)) r.pattern (.mk op data us) = some true →
      emittedCost G guard r (.mk op data us) < maxCost →
        ∃ c ≤ emittedCost G guard r (.mk op data us), Derives G guard (.mk op data us) r.nonterm c)
    (nt : String) (hset : B.mark nt ≠ .unset) : ∃ c ≤ B.cost nt, Derives G guard (.mk op data us) nt c := by
  induction nt using hB.grounded.induction with
  | _ nt ih =>
    have hbelow : B.cost nt < maxCost := lt_of_le_of_ne (hB.le_top nt) fun h => hset ((hB.unset nt).mpr h)
    cases hmark : B.mark nt with
    | unset => exact absurd hmark hset
    | direct r =>
      obtain ⟨r', hr, hfits, hguard, ho⟩ := mem_offersOf.mp (hB.direct nt r hmark)
      obtain ⟨rfl, hcost, rfl⟩ : nt = r'.nonterm ∧ B.cost nt = offered G (.mk op .init ss) r' ∧ r = r' := by
        simpa using ho
      rw [offered_matches data hs] at hcost
      rw [patternGuard_matches data hs] at hfits
      rw [hcost] at hbelow ⊢
      exact hapt _ hr hguard hfits hbelow
    | along e =>
      obtain ⟨hmem, rfl, hcost⟩ := hB.along nt e hmark
      have hsource : B.mark e.source ≠ .unset := fun h => by
        have := (hB.unset e.source).mp h
        omega
      obtain ⟨c, hle, hderives⟩ := ih e.source ⟨e, hmark, rfl⟩ hsource
      obtain ⟨r, hr, hn, hname, hguard, he⟩ := mem_edgesFrom.mp hmem
      refine ⟨r.cost + c, ?_, ?_⟩
      · rw [hcost, he]
        change r.cost + c ≤ B.cost e.source + r.cost
        omega
      · refine derives_iff.mpr ⟨r, hr, ?_, hguard, _, frontier_nonterm hn _, c, ⟨c, 0, ?_, rfl, rfl⟩, rfl⟩
        · rw [he]
        · rw [hname]
          exact hderives

omit hs in
theorem rule_toTable (nt : String) : (toTable B).rule nt ≠ 0 ↔ B.mark nt ≠ .unset := by
  change ((number (B.mark nt) : Nat) : Int) ≠ 0 ↔ _
  rw [ne_eq, Int.natCast_eq_zero]
  cases hmark : B.mark nt with
  | unset =>
    constructor
    · intro h
      exact absurd rfl h
    · intro h
      exact absurd rfl h
  | direct r =>
    obtain ⟨r', hr, -, -, ho⟩ := mem_offersOf.mp (hB.direct nt r hmark)
    obtain rfl : r = r' := (Prod.mk.inj (Prod.mk.inj ho).2).2
    have hpos := (Spec.rule_number_mem (mem_rulesByTerm.mp hr).1).1
    exact iff_of_true (Nat.ne_of_gt hpos) (by simp)
  | along e =>
    obtain ⟨hmem, -, -⟩ := hB.along nt e hmark
    obtain ⟨r, hr, -, -, -, he⟩ := mem_edgesFrom.mp hmem
    have hpos := (Spec.rule_number_mem hr).1
    rw [he]
    exact iff_of_true (Nat.ne_of_gt hpos) (by simp)

/-- Where nothing undercuts and least costs are small, what is kept is least. -/
theorem matches_of_settled (hapt : ∀ r ∈ rulesByTerm G op, guard r (.mk op data us) = true →
      patternGuard G (Node.view (derivable G guard)) r.pattern (.mk op data us) = some true →
      emittedCost G guard r (.mk op data us) < maxCost →
        ∃ c ≤ emittedCost G guard r (.mk op data us), Derives G guard (.mk op data us) r.nonterm c)
    (hsmall : ∀ nt, (∃ c, Derives G guard (.mk op data us) nt c) → leastCost G guard (.mk op data us) nt < maxCost) :
    Matches G guard (.mk op data us) (.mk op (toTable B) ss) := by
  have hle : ∀ nt c, Derives G guard (.mk op data us) nt c → B.cost nt ≤ c := by
    rintro nt c ⟨d, hd, hgoal, rfl⟩
    obtain ⟨hnode, rfl⟩ := Prod.mk.inj hgoal
    exact kept_le hs hB d hd hnode
  have hset : ∀ nt, (∃ c, Derives G guard (.mk op data us) nt c) → B.mark nt ≠ .unset := by
    intro nt hex hunset
    have hcost := (hB.unset nt).mp hunset
    have := hle nt _ (derives_leastCost hex)
    have := hsmall nt hex
    omega
  have hrule : ∀ nt, (toTable B).rule nt ≠ 0 ↔ ∃ c, Derives G guard (.mk op data us) nt c := by
    intro nt
    rw [rule_toTable hB]
    constructor
    · intro h
      obtain ⟨c, -, hc⟩ := kept_derives hs hB hapt nt h
      exact ⟨c, hc⟩
    · exact hset nt
  refine ⟨hrule, fun nt => ?_, fun nt => ?_⟩
  · change ((B.cost nt : Nat) : Int) = _
    by_cases hex : ∃ c, Derives G guard (.mk op data us) nt c
    · obtain ⟨c, hc, hderives⟩ := kept_derives hs hB hapt nt (hset nt hex)
      have := hle nt _ (derives_leastCost hex)
      have := leastCost_le hderives
      omega
    · have hunset : B.mark nt = .unset := by
        by_contra h
        exact hex ((hrule nt).mp ((rule_toTable hB nt).mpr h))
      rw [leastCost_of_not hex, (hB.unset nt).mp hunset]
  · by_cases hex : ∃ c, Derives G guard (.mk op data us) nt c
    · exact le_of_lt (hsmall nt hex)
    · rw [leastCost_of_not hex]

end Settled

/-- A state labelled without an error, and what the programme made of its arrays. -/
theorem burgDp_eq_some {polls : Bool} {fuel : Nat} {ctx ctx' : Ctx} {s : State}
    (h : burgDp G eval polls fuel (.mk op data us) ss ctx = some (s, ctx')) :
    (polls = false → rulesByTerm G op ≠ []) ∧ ∃ table, s = .mk op table ss ∧
      (rulesByTerm G op).foldlM
        (tryRule G (fun r => r.holds eval (.mk op data us)) fuel (.mk op .init ss)) .init = some table := by
  unfold burgDp at h
  dsimp only [Node.op] at h
  split at h
  · next hnil =>
    split at h
    · next hpolls =>
      obtain ⟨rfl, -⟩ := Prod.mk.inj (Option.some.inj h)
      refine ⟨fun hc => absurd hpolls (by simp [hc]), .init, rfl, ?_⟩
      rw [hnil]
      rfl
    · cases h
  · next hne =>
    obtain ⟨table, htable, h⟩ := Option.map_eq_some_iff.mp h
    obtain ⟨rfl, -⟩ := Prod.mk.inj h
    exact ⟨fun _ => hne, table, rfl, htable⟩

theorem burgDp_of_table {polls : Bool} {fuel : Nat} (ctx : Ctx) (hknown : polls = false → rulesByTerm G op ≠ [])
    {table : Table} (h : (rulesByTerm G op).foldlM
      (tryRule G (fun r => r.holds eval (.mk op data us)) fuel (.mk op .init ss)) .init = some table) :
    ∃ ctx', burgDp G eval polls fuel (.mk op data us) ss ctx = some (.mk op table ss, ctx') := by
  unfold burgDp
  dsimp only [Node.op]
  split
  · next hnil =>
    rw [hnil] at h
    obtain rfl := Option.some.inj h
    have hpolls : polls = true := by
      by_contra hc
      exact hknown (by simpa using hc) hnil
    rw [if_pos hpolls]
    exact ⟨_, rfl⟩
  · refine ⟨ctx, ?_⟩
    change Option.map _ (List.foldlM _ Table.init _) = _
    rw [h, Option.map_some]

section Step

variable {polls : Bool} {fuel : Nat} (hG : Small G) (hfuel : G.rules.length < fuel)
  (hs : LabelledAll (Matches G fun r u => r.holds eval u) us ss) (hfits : Fits G (.mk op data us))

include hG hfuel hs hfits

/-- The programme at a node, once no guard reads what is not there. -/
theorem settled_of_reads (hreads : ∀ r ∈ rulesByTerm G op, ∃ b,
      patternGuard G (Node.view (derivable G fun r u => r.holds eval u)) r.pattern (.mk op data us) = some b) :
    ∃ B, (rulesByTerm G op).foldlM
        (tryRule G (fun r => r.holds eval (.mk op data us)) fuel (.mk op .init ss)) .init = some (toTable B) ∧
      Settled (edgesFrom G fun r => r.holds eval (.mk op data us)) maxCost
        (offersOf G (fun r => r.holds eval (.mk op data us)) (.mk op .init ss) (rulesByTerm G op)) B := by
  refine dp_settled hG (fitting_of_fits (fun u s h => h.ranged) hs hfits) (fun r hr => ?_) hfuel
  rw [patternGuard_matches data hs]
  exact hreads r hr

/-- **An apt node is labelled right.** -/
theorem labelled_of_apt (hapt : Apt G (fun r u => r.holds eval u) polls (.mk op data us)) (ctx : Ctx) :
    ∃ table ctx', burgDp G eval polls fuel (.mk op data us) ss ctx = some (.mk op table ss, ctx') ∧
      Matches G (fun r u => r.holds eval u) (.mk op data us) (.mk op table ss) := by
  obtain ⟨B, hrun, hB⟩ := settled_of_reads hG hfuel hs hfits hapt.reads
  obtain ⟨ctx', hdp⟩ := burgDp_of_table ctx hapt.known hrun
  refine ⟨toTable B, ctx', hdp, matches_of_settled hs hB (fun r hr hguard hholds hless => ?_) hapt.small⟩
  by_cases hreg : Regular G r.pattern (.mk op data us)
  · exact ⟨_, le_refl _, derives_emittedCost hr hguard hreg hless⟩
  · exact hapt.dear r hr hreg hguard hholds hless

/-- **A node that is labelled right is apt.** -/
theorem apt_of_exact {ctx ctx' : Ctx} {s : State}
    (h : burgDp G eval polls fuel (.mk op data us) ss ctx = some (s, ctx'))
    (hexact : Exact G (fun r u => r.holds eval u) (.mk op data us) s) :
    Apt G (fun r u => r.holds eval u) polls (.mk op data us) ∧
      Matches G (fun r u => r.holds eval u) (.mk op data us) s := by
  obtain ⟨hknown, table, rfl, htable⟩ := burgDp_eq_some h
  have hreads : ∀ r ∈ rulesByTerm G op, ∃ b,
      patternGuard G (Node.view (derivable G fun r u => r.holds eval u)) r.pattern (.mk op data us) = some b := by
    intro r hr
    rw [← patternGuard_matches data hs]
    exact reads_of_dp htable r hr
  obtain ⟨B, hrun, hB⟩ := settled_of_reads hG hfuel hs hfits hreads
  obtain rfl : table = toTable B := Option.some.inj (htable.symm.trans hrun)
  have hmark : ∀ nt, B.mark nt ≠ .unset ↔ ∃ c, Derives G (fun r u => r.holds eval u) (.mk op data us) nt c :=
    fun nt => (rule_toTable hB nt).symm.trans (hexact.rule nt)
  have hcost : ∀ nt, (∃ c, Derives G (fun r u => r.holds eval u) (.mk op data us) nt c) →
      B.cost nt = leastCost G (fun r u => r.holds eval u) (.mk op data us) nt := fun nt hex => by
    have hleast := hexact.cost nt _ (isLeast_leastCost hex)
    exact Int.ofNat.inj hleast
  have hbelow : ∀ nt, B.mark nt ≠ .unset → B.cost nt < maxCost := fun nt hset =>
    lt_of_le_of_ne (hB.le_top nt) fun hc => hset ((hB.unset nt).mpr hc)
  refine ⟨⟨hreads, hknown, fun nt hex => ?_, fun r hr _ hguard hholds hless => ?_⟩, hexact.rule, fun nt => ?_,
    fun nt => ?_⟩
  · rw [← hcost nt hex]
    exact hbelow nt ((hmark nt).mpr hex)
  · rw [← patternGuard_matches data hs] at hholds
    have hoffered := hB.offered _ (mem_offersOf.mpr ⟨r, hr, hholds, hguard, rfl⟩)
    change B.cost r.nonterm ≤ offered G (.mk op .init ss) r at hoffered
    rw [offered_matches data hs] at hoffered
    have hset : B.mark r.nonterm ≠ .unset := fun hc => by
      have := (hB.unset r.nonterm).mp hc
      omega
    have hex := (hmark r.nonterm).mp hset
    refine ⟨_, ?_, derives_leastCost hex⟩
    rw [← hcost _ hex]
    exact hoffered
  · change ((B.cost nt : Nat) : Int) = _
    by_cases hex : ∃ c, Derives G (fun r u => r.holds eval u) (.mk op data us) nt c
    · rw [hcost nt hex]
    · have hunset : B.mark nt = .unset := by
        by_contra hc
        exact hex ((hmark nt).mp hc)
      rw [leastCost_of_not hex, (hB.unset nt).mp hunset]
  · by_cases hex : ∃ c, Derives G (fun r u => r.holds eval u) (.mk op data us) nt c
    · rw [← hcost nt hex]
      exact hB.le_top nt
    · rw [leastCost_of_not hex]

end Step

end Node

/-! ## Whole trees -/

section Tree

variable {eval : String → Node α → Bool} {polls : Bool} {fuel : Nat}

mutual

theorem labelTree_of_apt (hG : Small G) (hfuel : G.rules.length < fuel) : ∀ (u : Node α) (ctx : Ctx), u.Everywhere (Fits G) →
    u.Everywhere (Apt G (fun r u => r.holds eval u) polls) →
      ∃ s ctx', labelTree G eval polls fuel u ctx = some (s, ctx') ∧
        Labelled (Matches G fun r u => r.holds eval u) u s
  | .mk op data us, ctx, hfits, hapt => by
    obtain ⟨ss, ctx₁, hrun, hs⟩ := labelTrees_of_apt hG hfuel us ctx hfits.2 hapt.2
    obtain ⟨table, ctx₂, hdp, hmatches⟩ := labelled_of_apt hG hfuel hs hfits.1 hapt.1 ctx₁
    refine ⟨_, ctx₂, ?_, .mk hmatches hs⟩
    rw [labelTree, hrun, Option.bind_some]
    exact hdp

theorem labelTrees_of_apt (hG : Small G) (hfuel : G.rules.length < fuel) : ∀ (us : List (Node α)) (ctx : Ctx), Node.EverywhereAll (Fits G) us →
    Node.EverywhereAll (Apt G (fun r u => r.holds eval u) polls) us →
      ∃ ss ctx', labelTrees G eval polls fuel us ctx = some (ss, ctx') ∧
        LabelledAll (Matches G fun r u => r.holds eval u) us ss
  | [], ctx, _, _ => ⟨[], ctx, rfl, .nil⟩
  | u :: us, ctx, hfits, hapt => by
    obtain ⟨s, ctx₁, hfirst, hu⟩ := labelTree_of_apt hG hfuel u ctx hfits.1 hapt.1
    obtain ⟨ss, ctx₂, hrest, hus⟩ := labelTrees_of_apt hG hfuel us ctx₁ hfits.2 hapt.2
    refine ⟨s :: ss, ctx₂, ?_, .cons hu hus⟩
    rw [labelTrees, hfirst, Option.bind_some]
    change Option.map _ (labelTrees G eval polls fuel us ctx₁) = _
    rw [hrest, Option.map_some]

end

mutual

theorem apt_of_labelTree (hG : Small G) (hfuel : G.rules.length < fuel) :
    ∀ (u : Node α) (ctx ctx' : Ctx) (s : State), u.Everywhere (Fits G) →
    labelTree G eval polls fuel u ctx = some (s, ctx') → Labelled (Exact G fun r u => r.holds eval u) u s →
      u.Everywhere (Apt G (fun r u => r.holds eval u) polls) ∧ Labelled (Matches G fun r u => r.holds eval u) u s
  | .mk op data us, ctx, ctx', s, hfits, hrun, hlabelled => by
    rw [labelTree] at hrun
    obtain ⟨⟨ss, ctx₁⟩, htrees, hdp⟩ := Option.bind_eq_some_iff.mp hrun
    obtain ⟨-, table, rfl, -⟩ := burgDp_eq_some hdp
    cases hlabelled with
    | mk hexact hs =>
      obtain ⟨hapts, hmatches⟩ := apt_of_labelTrees hG hfuel us ctx ctx₁ ss hfits.2 htrees hs
      obtain ⟨hapt, hmatch⟩ := apt_of_exact hG hfuel hmatches hfits.1 hdp hexact
      exact ⟨⟨hapt, hapts⟩, .mk hmatch hmatches⟩

theorem apt_of_labelTrees (hG : Small G) (hfuel : G.rules.length < fuel) :
    ∀ (us : List (Node α)) (ctx ctx' : Ctx) (ss : List State),
    Node.EverywhereAll (Fits G) us → labelTrees G eval polls fuel us ctx = some (ss, ctx') →
      LabelledAll (Exact G fun r u => r.holds eval u) us ss →
        Node.EverywhereAll (Apt G (fun r u => r.holds eval u) polls) us ∧
          LabelledAll (Matches G fun r u => r.holds eval u) us ss
  | [], _, _, _, _, _, .nil => ⟨trivial, .nil⟩
  | u :: us, ctx, ctx', _, hfits, hrun, hlabelled => by
    rw [labelTrees] at hrun
    obtain ⟨⟨s, ctx₁⟩, hfirst, hrun⟩ := Option.bind_eq_some_iff.mp hrun
    obtain ⟨⟨ss, ctx₂⟩, hrest, heq⟩ := Option.map_eq_some_iff.mp hrun
    obtain ⟨rfl, rfl⟩ := Prod.mk.inj heq
    cases hlabelled with
    | cons hu hus =>
      obtain ⟨hapt, hmatch⟩ := apt_of_labelTree hG hfuel u ctx ctx₁ s hfits.1 hfirst hu
      obtain ⟨hapts, hmatches⟩ := apt_of_labelTrees hG hfuel us ctx₁ ctx₂ ss hfits.2 hrest hus
      exact ⟨⟨hapt, hapts⟩, .cons hmatch hmatches⟩

end

end Tree

/-- `s: A(B(C(r))) = 1;  r: D = 5;  b: B(c) = 1;  c: C(r) = 1;` -/
def deepLeaf : Spec where
  terminals := ["A", "B", "C", "D"]
  start := "s"
  entries := []
  rules :=
    [⟨"s", .mk "A" [.mk "B" [.mk "C" [.mk "r" []]]], 1, "", "", 1⟩,
     ⟨"r", .mk "D" [], 5, "", "", 2⟩,
     ⟨"b", .mk "B" [.mk "c" []], 1, "", "", 3⟩,
     ⟨"c", .mk "C" [.mk "r" []], 1, "", "", 4⟩]
  numbered := rfl

/-- The tree `A(B(C(D)))`. -/
def deepTree : Node Unit := .mk "A" () [.mk "B" () [.mk "C" () [.mk "D" () []]]]

theorem deepLeaf_small : Small deepLeaf := ⟨by decide, by decide⟩

theorem fits_leaf : Node.Everywhere (Fits deepLeaf) (.mk "D" () []) := by
  refine ⟨?_, trivial⟩
  have hrules : rulesByTerm deepLeaf "D" = [⟨"r", .mk "D" [], 5, "", "", 2⟩] := by rfl
  intro r hr vs hvs
  change r ∈ rulesByTerm deepLeaf "D" at hr
  rw [hrules, List.mem_singleton] at hr
  subst hr
  cases hvs
  decide

section

variable {guard : Rule → Node Unit → Bool} {c : Nat}

theorem derives_leaf (h : Derives deepLeaf guard (.mk "D" () []) "r" c) : c = 5 := by
  obtain ⟨r, hr, hnt, -, goals, hfrontier, c', hall, rfl⟩ := derives_iff.mp h
  simp only [deepLeaf, List.mem_cons, List.not_mem_nil, or_false] at hr
  rcases hr with rfl | rfl | rfl | rfl
  · exact absurd hnt (by decide)
  · obtain rfl : goals = [] := (Option.some.inj hfrontier).symm
    obtain rfl : c' = 0 := hall
    rfl
  · exact absurd hnt (by decide)
  · exact absurd hnt (by decide)

/-- The only cover of the tree by `s` is that of the leaf and the rule above it. -/
theorem derives_deepTree (h : Derives deepLeaf guard deepTree "s" c) : c = 6 := by
  obtain ⟨r, hr, hnt, -, goals, hfrontier, c', hall, rfl⟩ := derives_iff.mp h
  simp only [deepLeaf, List.mem_cons, List.not_mem_nil, or_false] at hr
  rcases hr with rfl | rfl | rfl | rfl
  · obtain rfl : goals = [(.mk "D" () [], "r")] := (Option.some.inj hfrontier).symm
    obtain ⟨c₁, c₂, hleaf, rfl, rfl⟩ := hall
    rw [derives_leaf hleaf]
  · exact absurd hnt (by decide)
  · exact absurd hnt (by decide)
  · exact absurd hnt (by decide)

end

/-- The label of `s` at the root leaves out the rule at the leaf. -/
theorem deepTree_label : (labelTree deepLeaf (fun _ _ => true) false 5 deepTree none).map
    (fun r => (r.1.table.rule "s", r.1.table.cost "s")) = some (1, 1) := by decide +kernel

end Bbq.Burg
