import Bbq.Egraph.KnownConst
import Bbq.Egraph.Matching

/-!
# Saturation and its fixpoint

`eg_saturate` stops where a round reports no change. The report is of the merges that the matcher makes
itself. The `modify` of a node that a template adds may merge too, and then the round reports nothing, and
`eg_rebuild` has work that no later round looks at.

* **`saturated`**: where the last round leaves nothing to `eg_rebuild` (and no node behind that a helper was
  applied to), the instance of every match stands in the class that matched, and congruence holds.
* **`saturated_commuted`**: a run of two rounds. **`modify_unreported`**: a run that stops too early.
-/

namespace Bbq.Egraph

variable {D : Type} {an : EgAnalysis D} {aux : String → View D → List (Option Nat) → Option Nat} {s₀ s s' : Analysed D}
  {tame : Prop}

theorem mergeFact_after (hs : Whole s.graph) (a b : Nat) : Onward s.graph (mergeFact an s a b).2.graph := by
  rw [(mergeFact_graph an s a b).2]
  exact .merge hs a b

theorem fire_keeps (han : Contract an) (rule : RewriteRule D) (c n0 : Nat) (env : Env) :
    Keeps (fire an aux rule c n0 env) := by
  intro t ht
  have hbuild : Onward t.state.graph (build an aux c n0 env rule.tmpl t.state).2.graph :=
    build_after han c n0 env rule.tmpl ht
  unfold fire
  split
  · generalize build an aux c n0 env rule.tmpl t.state = r at hbuild ⊢
    obtain ⟨built, s⟩ := r
    dsimp only at hbuild
    cases built with
    | none => exact ⟨hbuild, id⟩
    | some built => exact ⟨hbuild.trans (mergeFact_after hbuild.whole c built), fun h => by simp [h]⟩
  · exact ⟨.refl ht, id⟩

/-- A merge that reports nothing found one class, and finds are all that was done. -/
theorem mergeFact_idle (hs : Whole s.graph) {a b : Nat} (ha : egValid s.graph a) (hb : egValid s.graph b)
    (h : (mergeFact an s a b).1 = false) :
    root s.graph.parent a = root s.graph.parent b ∧ Alike s (mergeFact an s a b).2 := by
  have hgraph := mergeFact_graph an s a b
  have hdata : (mergeFact an s a b).2.class_data = s.class_data := by
    unfold mergeFact at h ⊢
    generalize egMerge s.graph a b = r at h ⊢
    obtain ⟨merged, graph⟩ := r
    cases merged with
    | false => rfl
    | true => cases h
  rw [hgraph.1] at h
  rcases egMerge_spec hs.stored ha hb with ⟨hroots, -, hsame⟩ | ⟨-, htrue, -⟩
  · refine ⟨hroots, ?_, hdata⟩
    rw [hgraph.2]
    exact hsame
  · rw [htrue] at h
    cases h

/-- **The innermost body**: nothing is reported only where the instance stands in the matched class. -/
theorem fire_shows (han : Contract an) (haux : Gives aux) (h₀ : Whole s₀.graph) {rule : RewriteRule D}
    (htame : tame → plain rule.tmpl = true) {c : Nat} (n0 : Nat) (hc : c < s₀.graph.parent.length)
    (hroot : root s₀.graph.parent c = c) {env : Env} (henv : EnvOk s₀ (bindersAll rule.children) env) :
    Shows s₀ tame (fire an aux rule c n0 env) (rule.guard (view s₀) env c = true →
      ∃ id, stands aux s₀ c (egClassNodeData s₀.graph (some c) n0) env rule.tmpl = some id ∧
        root s₀.graph.parent id = c) := by
  intro t ht hstill
  have hbuild : Onward t.state.graph (build an aux c n0 env rule.tmpl t.state).2.graph :=
    build_after han c n0 env rule.tmpl ht
  have hsees := build_sees han haux h₀ n0 hc henv.valid rule.tmpl
    (fun name hname => henv.bound name (rule.bound name hname)) ht (.of_same h₀.stored.grove hstill.1.same)
  unfold fire
  rw [hstill.1.view]
  by_cases hguard : rule.guard (view s₀) env c = true
  · rw [if_pos hguard]
    generalize build an aux c n0 env rule.tmpl t.state = r at hbuild hsees ⊢
    obtain ⟨built, s⟩ := r
    dsimp only at hbuild hsees
    by_cases hw : s.graph.worklist = []
    · obtain ⟨id, rfl, hid, hsee⟩ := hsees hw
      have hgrown := (Grown.of_same h₀.stored.grove hstill.1.same).trans (hbuild.grown hw).2
      have hmerge : Onward s.graph (mergeFact an s c id).2.graph := mergeFact_after hbuild.whole c id
      dsimp only
      cases hmerged : (mergeFact an s c id).1 with
      | true => exact .inl (.inl (by simp))
      | false =>
        obtain ⟨hroots, halike⟩ := mergeFact_idle hbuild.whole (lt_of_lt_of_le hc hgrown.length) hid hmerged
        rw [hgrown.old c hc, hroot] at hroots
        rcases hsee hstill.1 with ⟨halike', hstands⟩ | ⟨hcount, -, hnew⟩
        · refine .inr ⟨⟨halike'.trans halike, by simp [hstill.2]⟩, fun _ => ⟨id, hstands, ?_⟩⟩
          rw [← halike'.same.halved.root, ← hroots]
        · by_cases hpl : tame
          · -- the root of a new class is new
            have hbeyond := hgrown.new id (hnew (htame hpl))
            rw [← hroots] at hbeyond
            exact absurd hc (not_lt.mpr hbeyond)
          · exact .inl (.inr (.inr ⟨hpl, lt_of_lt_of_le hcount hmerge.count⟩))
    · refine .inl (.inr (.inl ?_))
      cases built with
      | none => exact hw
      | some id =>
        have hmerge : Onward s.graph (mergeFact an s c id).2.graph := mergeFact_after hbuild.whole c id
        exact fun h => hw (hmerge.grown h).1
  · rw [if_neg hguard]
    exact .inr ⟨hstill, fun h => absurd h hguard⟩

/-! ## Rounds -/

theorem classTurn_keeps (han : Contract an) (rule : RewriteRule D) (c : Nat) :
    Keeps (classTurn an aux rule · c) := by
  intro t ht
  dsimp only [classTurn]
  split
  · exact matchNode_keeps (fun n0 kids => matchPats_keeps _ kids noEnv fun env => fire_keeps han rule c n0 env) t ht
  · exact ⟨.refl ht, id⟩

theorem ruleTurn_keeps (han : Contract an) (rule : RewriteRule D) : Keeps (ruleTurn an aux · rule) := by
  intro t ht
  have hrule : Onward t.state.graph (rwRule an aux rule t.state).state.graph :=
    (foldl_keeps (classTurn_keeps han rule) _ { state := t.state, changed := false } ht).1
  exact ⟨hrule, fun h => by simp [ruleTurn, h]⟩

/-- The loops of a rule at a class. -/
theorem classTurn_shows (han : Contract an) (haux : Gives aux) (h₀ : Whole s₀.graph) {rule : RewriteRule D}
    (htame : tame → plain rule.tmpl = true) {c : Nat} (hc : c < s₀.graph.parent.length) :
    Shows s₀ tame (classTurn an aux rule · c) (root s₀.graph.parent c = c → ∀ n, NodeAt s₀.graph c n → n.op = rule.op →
      n.kids.length = rule.children.length → ∃ i, classLiveNode s₀.graph (some c) i = some n ∧
        ∀ σ, MatchesAll s₀.graph σ rule.children n.kids →
          rule.guard (view s₀) (extend (bindersAll rule.children) σ noEnv) c = true →
            ∃ id, stands aux s₀ c (egClassNodeData s₀.graph (some c) i) (extend (bindersAll rule.children) σ noEnv)
              rule.tmpl = some id ∧ root s₀.graph.parent id = c) := by
  intro t ht hstill
  have hempty : EnvOk s₀ [] noEnv := ⟨fun name id h => (nomatch h), fun name h => (nomatch h)⟩
  dsimp only [classTurn]
  rw [hstill.1.same.halved.root]
  by_cases hroot : root s₀.graph.parent c = c
  · rw [if_pos hroot]
    have hloops : Shows s₀ tame (matchNode rule.op rule.children.length (some c)
        fun n0 kids => matchPats rule.children kids noEnv (fire an aux rule c n0)) _ := matchNode_shows h₀ (fun n0 kids => matchPats_keeps rule.children kids noEnv (fire_keeps han rule c n0))
      (fun n0 n _ hn _ harity => matchPats_shows h₀ rule.children n.kids harity
        (fun k hk => by
          obtain ⟨-, idx, hidx, -, -⟩ := hn
          exact h₀.stored.kids idx n hidx k hk)
        (fire_keeps han rule c n0) (fun env henv => fire_shows han haux h₀ htame n0 hc hroot henv) hempty)
    exact (hloops t ht hstill).imp_right fun h => ⟨h.1, fun _ => h.2⟩
  · rw [if_neg hroot]
    exact .inr ⟨hstill, fun h => absurd h hroot⟩

/-- **The matcher of a rule** reports nothing only where the rule has nothing to do. -/
theorem ruleTurn_shows (han : Contract an) (haux : Gives aux) (h₀ : Whole s₀.graph) {rule : RewriteRule D}
    (htame : tame → plain rule.tmpl = true) : Shows s₀ tame (ruleTurn an aux · rule) (RuleDone aux rule s₀) := by
  intro t ht hstill
  have hcount : egClassCount t.state.graph = s₀.graph.parent.length := by
    unfold egClassCount
    rw [hstill.1.same.classes, h₀.stored.classes]
  have hstart : Still s₀ { state := t.state, changed := false } := ⟨hstill.1, rfl⟩
  have hloop : Loud s₀ tame (rwRule an aux rule t.state) ∨ Still s₀ (rwRule an aux rule t.state) ∧ _ :=
    foldl_shows (classTurn_keeps han rule) (List.range (egClassCount t.state.graph)) (fun c hc => by
      rw [List.mem_range, hcount] at hc
      exact classTurn_shows han haux h₀ htame hc) _ ht hstart
  rcases hloop with hloud | ⟨hstill', hall⟩
  · exact .inl (hloud.imp_left fun h => by simp [ruleTurn, h])
  · refine .inr ⟨⟨hstill'.1, by simp [ruleTurn, hstill.2, hstill'.2]⟩, fun c n σ hroot hn hop hkids hguard => ?_⟩
    have hc : c ∈ List.range (egClassCount t.state.graph) := by
      rw [List.mem_range, hcount]
      exact hn.1
    obtain ⟨i, hlive, hdone⟩ := hall c hc hroot n hn hop hkids.length
    have hdata : egClassNodeData s₀.graph (some c) i = n.data := by
      unfold egClassNodeData
      rw [hlive, Option.map_some, Option.getD_some]
    rw [← hdata]
    exact hdone σ hkids hguard

theorem rewriteRound_shows (han : Contract an) (haux : Gives aux) (h₀ : Whole s₀.graph) {rules : List (RewriteRule D)}
    (htame : ∀ rule ∈ rules, tame → plain rule.tmpl = true) :
    Loud s₀ tame (rewriteRound an aux rules s₀) ∨
      Still s₀ (rewriteRound an aux rules s₀) ∧ ∀ rule ∈ rules, RuleDone aux rule s₀ :=
  foldl_shows (ruleTurn_keeps han) rules (fun rule hrule => ruleTurn_shows han haux h₀ (htame rule hrule)) _ h₀
    ⟨⟨.refl h₀.stored.grove, rfl⟩, rfl⟩

theorem rewriteRound_after (han : Contract an) (rules : List (RewriteRule D)) (hs : Whole s.graph) :
    Onward s.graph (rewriteRound an aux rules s).state.graph :=
  (foldl_keeps (ruleTurn_keeps han) rules { state := s, changed := false } hs).1

/-! ## The run -/

/-- Every rule is done, and the graph is congruent. -/
structure Saturated (aux : String → View D → List (Option Nat) → Option Nat) (rules : List (RewriteRule D))
    (s : Analysed D) : Prop where
  done : ∀ rule ∈ rules, RuleDone aux rule s
  congruent : Congruent s.graph

/-- What a round that reports no change leaves to `eg_rebuild` is nothing, and no node was added below a
helper. -/
def Settled (rules : List (RewriteRule D)) (turn : Analysed D × Turn D) : Prop :=
  turn.2.changed = false → turn.2.state.graph.worklist = [] ∧
    ((∀ rule ∈ rules, plain rule.tmpl = true) ∨ turn.2.state.graph.nodes.length = turn.1.graph.nodes.length)

theorem RuleDone.alike {rule : RewriteRule D} (h : RuleDone aux rule s) (ha : Alike s s') : RuleDone aux rule s' := by
  intro c n σ hroot hn hop hkids hguard
  rw [ha.same.halved.root] at hroot
  rw [ha.view] at hguard
  obtain ⟨id, hstands, hid⟩ := h c n σ hroot ((nodeAt_same ha.same).mp hn) hop ((matchesAll_same ha.same σ _ _).mp hkids)
    hguard
  refine ⟨id, ?_, by rw [ha.same.halved.root, hid]⟩
  rw [stands_alike aux ha]
  exact hstands

theorem saturateLoop_saturated [DecidableEq D] (han : Contract an) (haux : Gives aux) {rules : List (RewriteRule D)}
    {fuel budget : Nat} {left r : Nat} (hs : Whole s.graph)
    (hrun : saturateLoop (rewriteRound an aux rules) (rebuildFacts an fuel) budget left s = some (r, s'))
    (hr : r < left) (hbudget : s'.graph.nodes.length < budget)
    (hsettled : ∀ turn ∈ turns (rewriteRound an aux rules) (rebuildFacts an fuel) budget left s, Settled rules turn) :
    Saturated aux rules s' := by
  induction left generalizing s r with
  | zero => exact absurd hr (Nat.not_lt_zero r)
  | succ left ih =>
    unfold saturateLoop at hrun
    unfold turns at hsettled
    have hafter : Onward s.graph (rewriteRound an aux rules s).state.graph := rewriteRound_after han rules hs
    by_cases hnodes : s.graph.nodes.length < budget
    · rw [if_pos hnodes] at hrun hsettled
      dsimp only at hrun hsettled
      rw [Option.bind_eq_some_iff] at hrun
      obtain ⟨s₁, hrebuild, hrun⟩ := hrun
      have hfirst := hsettled _ List.mem_cons_self
      cases hchanged : (rewriteRound an aux rules s).changed with
      | true =>
        rw [hchanged, if_pos rfl, Option.map_eq_some_iff] at hrun
        obtain ⟨⟨r', s₂⟩, hrest, heq⟩ := hrun
        obtain ⟨rfl, rfl⟩ := Prod.mk.inj heq
        rw [hchanged, if_pos rfl, hrebuild, Option.map_some, Option.getD_some] at hsettled
        exact ih (rebuildFacts_whole han hafter.whole hrebuild).1 hrest (Nat.lt_of_succ_lt_succ hr)
          fun turn hturn => hsettled turn (List.mem_cons_of_mem _ hturn)
      | false =>
        rw [hchanged, if_neg Bool.false_ne_true] at hrun
        obtain ⟨-, rfl⟩ := Prod.mk.inj (Option.some.inj hrun)
        obtain ⟨hw, hquiet⟩ := hfirst hchanged
        obtain rfl := rebuildFacts_idle hw hrebuild
        have htame : ∀ rule ∈ rules, (∀ rule ∈ rules, plain rule.tmpl = true) → plain rule.tmpl = true :=
          fun rule hrule h => h rule hrule
        have hshows := rewriteRound_shows han haux hs htame
        rcases hshows with (hloud | hloud | ⟨htame, hcount⟩) | ⟨hstill, hdone⟩
        · rw [hchanged] at hloud
          cases hloud
        · exact absurd hw hloud
        · exact absurd (hquiet.resolve_left htame) (ne_of_gt hcount)
        · exact ⟨fun rule hrule => (hdone rule hrule).alike hstill.1, hafter.whole.congruent hw⟩
    · rw [if_neg hnodes] at hrun
      obtain ⟨-, rfl⟩ := Prod.mk.inj (Option.some.inj hrun)
      exact absurd hbudget hnodes

/-- **Saturation reaches a fixpoint** where every round that reports no change has made none: on any graph,
with any rules, if neither the rounds nor the budget run out. -/
theorem saturated [DecidableEq D] (han : Contract an) (haux : Gives aux) (rules : List (RewriteRule D)) (fuel : Nat)
    (caps : EgCaps) (hs : Reachable an s) {r : Nat}
    (hrun : egSaturate (rewriteRound an aux rules) (rebuildFacts an fuel) caps s = some (r, s'))
    (hr : r < caps.rounds) (hbudget : s'.graph.nodes.length < caps.node_budget)
    (hsettled : ∀ turn ∈ turns (rewriteRound an aux rules) (rebuildFacts an fuel) caps.node_budget caps.rounds s,
      Settled rules turn) : Saturated aux rules s' :=
  saturateLoop_saturated han haux (hs.whole han) hrun hr hbudget hsettled

instance (rules : List (RewriteRule D)) (turn : Analysed D × Turn D) : Decidable (Settled rules turn) := by
  unfold Settled
  infer_instance

/-- An auxiliary that gives the first class of the graph. -/
def firstClass (_ : String) (_ : View D) (_ : List (Option Nat)) : Option Nat := some 0

theorem firstClass_gives : Gives (firstClass (D := D)) := fun _ _ _ h _ => ⟨0, rfl, h⟩

/-- Add($x, $y) => Add($y, $x). -/
def commute : RewriteRule (Option Int) where
  op := OP_ADD
  children := [.binder "x", .binder "y"]
  guard := fun _ _ _ => true
  tmpl := .node OP_ADD [.binder "y", .binder "x"]
  bound := by decide

/-- Add(A, B). -/
def oneSum : Analysed (Option Int) :=
  let s := (addFact knownConst { graph := egInit, class_data := [] } OP_A 0 []).2
  let s := (addFact knownConst s OP_B 0 []).2
  (addFact knownConst s OP_ADD 0 [0, 1]).2

theorem oneSum_reachable : Reachable knownConst oneSum := .add _ _ _ (.add _ _ _ (.add _ _ _ .init))

def eightRounds : EgCaps := { rounds := 8, node_budget := 100 }

theorem saturated_commuted : ∃ s', egSaturate (rewriteRound knownConst firstClass [commute])
    (rebuildFacts knownConst 20) eightRounds oneSum = some (2, s') ∧ Saturated firstClass [commute] s' := by
  have hends : (egSaturate (rewriteRound knownConst firstClass [commute]) (rebuildFacts knownConst 20) eightRounds
      oneSum).map (fun p => (p.1, p.2.graph.nodes.length)) = some (2, 4) := by decide +kernel
  obtain ⟨⟨r, s'⟩, hrun, heq⟩ := Option.map_eq_some_iff.mp hends
  obtain ⟨rfl, hcount⟩ := Prod.mk.inj heq
  refine ⟨s', hrun, saturated knownConst_contract firstClass_gives [commute] 20 eightRounds oneSum_reachable hrun
    (by decide) ?_ (by decide +kernel)⟩
  dsimp only at hcount
  rw [hcount]
  decide

/-- Add($x, $y) => Mul($x, $y). -/
def multiply : RewriteRule (Option Int) where
  op := OP_ADD
  children := [.binder "x", .binder "y"]
  guard := fun _ _ _ => true
  tmpl := .node OP_MUL [.binder "x", .binder "y"]
  bound := by decide

/-- Const => Add($$, $$), where the constant is 0. -/
def twiceNothing : RewriteRule (Option Int) where
  op := OP_CONST
  children := []
  guard := fun v _ c => v.class_data.getD (v.root c) none == some 0
  tmpl := .node OP_ADD [.matched, .matched]
  bound := by decide

/-- Const[0]. -/
def zeroGraph : Analysed (Option Int) := (addFact knownConst { graph := egInit, class_data := [] } OP_CONST 0 []).2

/-- The sum is built in the first round, and its `modify` merges it with the constant. The round reports
nothing, and so the product of the sum is never built. -/
theorem modify_unreported : Contract knownConst ∧ Reachable knownConst zeroGraph ∧ ∃ s',
    egSaturate (rewriteRound knownConst firstClass [multiply, twiceNothing]) (rebuildFacts knownConst 20) eightRounds
        zeroGraph = some (1, s') ∧
      s'.graph.nodes.length < eightRounds.node_budget ∧ ¬Saturated firstClass [multiply, twiceNothing] s' := by
  refine ⟨knownConst_contract, .add _ _ _ .init, ?_⟩
  have hends : (egSaturate (rewriteRound knownConst firstClass [multiply, twiceNothing]) (rebuildFacts knownConst 20)
      eightRounds zeroGraph).map (fun p => (p.1, p.2.graph.parent)) = some (1, [1, 1]) := by decide +kernel
  have hshape : (egSaturate (rewriteRound knownConst firstClass [multiply, twiceNothing]) (rebuildFacts knownConst 20)
      eightRounds zeroGraph).map (fun p => p.2.graph.nodes.map fun n => (n.op, n.kids)) =
        some [(OP_CONST, []), (OP_ADD, [1, 1])] := by decide +kernel
  have hstate : (egSaturate (rewriteRound knownConst firstClass [multiply, twiceNothing]) (rebuildFacts knownConst 20)
      eightRounds zeroGraph).map (fun p => p.2.graph.nodes.map fun n => (n.cls, n.live)) =
        some [(1, true), (1, true)] := by decide +kernel
  obtain ⟨⟨r, s'⟩, hrun, heq⟩ := Option.map_eq_some_iff.mp hends
  obtain ⟨rfl, hparent⟩ := Prod.mk.inj heq
  rw [hrun, Option.map_some] at hshape hstate
  dsimp only at hparent hshape hstate
  have hshape := Option.some.inj hshape
  have hstate := Option.some.inj hstate
  have hlen : s'.graph.nodes.length = 2 := by
    rw [← List.length_map fun n : EgNode => (n.op, n.kids), hshape]
    rfl
  have hlt : 1 < s'.graph.nodes.length := by
    rw [hlen]
    decide
  obtain ⟨n, hn⟩ : ∃ n, s'.graph.nodes[1]? = some n := ⟨_, List.getElem?_eq_getElem hlt⟩
  obtain ⟨hop, hkids⟩ : n.op = OP_ADD ∧ n.kids = [1, 1] := by
    have hget := congrArg (fun l => l[1]?) hshape
    simpa [hn] using hget
  obtain ⟨hcls, hlive⟩ : n.cls = 1 ∧ n.live = true := by
    have hget := congrArg (fun l => l[1]?) hstate
    simpa [hn] using hget
  have hroot : root s'.graph.parent 1 = 1 := by
    rw [hparent]
    decide
  refine ⟨s', hrun, by rw [hlen]; decide, fun hsat => ?_⟩
  -- the rule for sums at the class of the sum
  have hat : NodeAt s'.graph 1 n := by
    refine ⟨?_, 1, hn, hlive, by rw [hcls, hroot]⟩
    unfold egValid
    rw [hparent]
    decide
  have hmatch : MatchesAll s'.graph (fun _ => 1) multiply.children n.kids := by
    rw [hkids]
    simp [multiply, MatchesAll, Matches, hroot]
  obtain ⟨id, hstands, -⟩ := hsat.done multiply List.mem_cons_self 1 n (fun _ => 1) hroot hat hop hmatch rfl
  have hclass : nodeClass s'.graph OP_MUL n.data [1, 1] = some id := by
    simpa [multiply, stands, standsAll, extend, binders, bindersAll, hroot] using hstands
  obtain ⟨i, m, hm, -, hmul, -⟩ := nodeClass_some hclass
  have hmem : (m.op, m.kids) ∈ s'.graph.nodes.map fun n => (n.op, n.kids) :=
    List.mem_map_of_mem (List.mem_of_getElem? hm)
  rw [hshape, hmul] at hmem
  simp [OP_MUL, OP_CONST, OP_ADD] at hmem

end Bbq.Egraph
