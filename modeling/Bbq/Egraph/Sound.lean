import Bbq.Egraph.Arith
import Bbq.Egraph.Optimal

/-!
# Optimisation keeps the meaning

A caller fills a graph, saturates it and extracts. What is written for a class has the value of any term that the class
represented before, and costs no more.

* `Calls`: what a caller does, in any order: finds, `eg_add`, `eg_rebuild` and `eg_saturate` under any caps. It merges
  nothing itself, as that would be to assert an equation.
* `represents_value`: a term that a class represents has the value of the class.
* **`optimised_means`**: from any such graph on, whether saturation has stopped at its caps or before. It is enough that
  each rule holds of values, and that what the analysis and the auxiliaries say is so.
-/

namespace Bbq.Egraph

open Bbq.Lib

variable {V D : Type} {L : Language V D} {an : EgAnalysis D} {ν ν' : Nat → V} {s s' : Analysed D}
  {aux : String → View D → List (Option Nat) → Option Nat} {rules : List (RewriteRule D)}

/-- After `eg_init`. -/
def noNodes : Analysed D := { graph := egInit, class_data := [] }

theorem noNodes_sense (ν : Nat → V) : Sense L an ν noNodes where
  valued := ⟨⟨_, _, noHistory_ok.toKept⟩, fun a ha => absurd ha (Nat.not_lt_zero a), fun i n hn => (by cases hn)⟩
  slots := rfl
  facts := fun c hc => absurd hc (Nat.not_lt_zero c)

/-- A node is not added where a child is no class of the graph. -/
theorem addFact_refused (s : Analysed D) (op data : Int) {kids : List Nat} (hkids : ¬∀ k ∈ kids, egValid s.graph k) :
    (addFact an s op data kids).2 = s := by
  unfold addFact addNode egAdd
  rw [if_neg hkids]
  dsimp only
  rw [if_pos rfl]

section Calls

variable [DecidableEq D]

/-- What a caller does. -/
inductive Calls (an : EgAnalysis D) (aux : String → View D → List (Option Nat) → Option Nat)
    (rules : List (RewriteRule D)) (s : Analysed D) : Analysed D → Prop
  | done : Calls an aux rules s s
  | find {s' : Analysed D} (x : Nat) (h : Calls an aux rules s s') :
    Calls an aux rules s { s' with graph := (egFind s'.graph x).2 }
  | add {s' : Analysed D} (op data : Int) (kids : List Nat) (h : Calls an aux rules s s') :
    Calls an aux rules s (addFact an s' op data kids).2
  | rebuild {s' s'' : Analysed D} (fuel : Nat) (h : Calls an aux rules s s')
    (hrun : rebuildFacts an fuel s' = some s'') : Calls an aux rules s s''
  | saturate {s' s'' : Analysed D} (fuel : Nat) (caps : EgCaps) {rounds : Nat} (h : Calls an aux rules s s')
    (hrun : egSaturate (rewriteRound an aux rules) (rebuildFacts an fuel) caps s' = some (rounds, s'')) :
    Calls an aux rules s s''

theorem saturateLoop_later (hL : L.Describes an aux) (han : Contract an) (hrules : ∀ rule ∈ rules, rule.Holds L an)
    {fuel budget : Nat} {left rounds : Nat} (hs : Sense L an ν s)
    (hrun : saturateLoop (rewriteRound an aux rules) (rebuildFacts an fuel) budget left s = some (rounds, s')) :
    ∃ ν', Later L an ν s ν' s' := by
  induction left generalizing s ν rounds with
  | zero =>
    obtain ⟨-, rfl⟩ := Prod.mk.inj (Option.some.inj hrun)
    exact ⟨ν, .refl hs⟩
  | succ left ih =>
    unfold saturateLoop at hrun
    by_cases hnodes : s.graph.nodes.length < budget
    · rw [if_pos hnodes] at hrun
      dsimp only at hrun
      rw [Option.bind_eq_some_iff] at hrun
      obtain ⟨s₁, hrebuild, hrun⟩ := hrun
      obtain ⟨ν₁, hpass⟩ := rewriteRound_makes hL han hrules hs
      obtain ⟨ν₂, hrepair⟩ := rebuildFacts_later hL han hpass.sense hrebuild
      have hround := hpass.toLater.trans hrepair
      split at hrun
      · rw [Option.map_eq_some_iff] at hrun
        obtain ⟨⟨rounds', s₂⟩, hrest, heq⟩ := hrun
        obtain ⟨-, rfl⟩ := Prod.mk.inj heq
        obtain ⟨ν₃, hnext⟩ := ih hround.sense hrest
        exact ⟨ν₃, hround.trans hnext⟩
      · obtain ⟨-, rfl⟩ := Prod.mk.inj (Option.some.inj hrun)
        exact ⟨ν₂, hround⟩
    · rw [if_neg hnodes] at hrun
      obtain ⟨-, rfl⟩ := Prod.mk.inj (Option.some.inj hrun)
      exact ⟨ν, .refl hs⟩

/-- **What a caller does** changes no value. -/
theorem Calls.later (hL : L.Describes an aux) (han : Contract an) (hrules : ∀ rule ∈ rules, rule.Holds L an)
    (hs : Sense L an ν s) (h : Calls an aux rules s s') : ∃ ν', Later L an ν s ν' s' := by
  induction h with
  | done => exact ⟨ν, .refl hs⟩
  | find x _ ih =>
    obtain ⟨ν₁, hsofar⟩ := ih
    have hfind := egFind_same hsofar.sense.valued.whole.stored.grove x
    exact ⟨ν₁, hsofar.trans (Goes.of_same hsofar.sense hfind).toLater⟩
  | @add s₁ op data kids _ ih =>
    obtain ⟨ν₁, hsofar⟩ := ih
    by_cases hkids : ∀ k ∈ kids, egValid s₁.graph k
    · obtain ⟨ν₂, -, -, hgoes, -⟩ := addFact_goes hL han hsofar.sense op data hkids
      exact ⟨ν₂, hsofar.trans hgoes.toLater⟩
    · rw [addFact_refused s₁ op data hkids]
      exact ⟨ν₁, hsofar⟩
  | rebuild fuel _ hrun ih =>
    obtain ⟨ν₁, hsofar⟩ := ih
    obtain ⟨ν₂, hnext⟩ := rebuildFacts_later hL han hsofar.sense hrun
    exact ⟨ν₂, hsofar.trans hnext⟩
  | saturate fuel caps _ hrun ih =>
    obtain ⟨ν₁, hsofar⟩ := ih
    obtain ⟨ν₂, hnext⟩ := saturateLoop_later hL han hrules hsofar.sense hrun
    exact ⟨ν₂, hsofar.trans hnext⟩

end Calls

/-! ## Terms of a class -/

mutual

/-- **A term that a class represents** has its value. -/
theorem represents_value {g : EGraph} {excl : Int × Int} (h : Valued L ν g) : ∀ (t : EgTerm) (c : Nat),
    Represents g excl t c → L.value t = ν c
  | .mk label ts, c, ht => by
    have hc := ht.lt h.whole.stored
    unfold Represents at ht
    obtain ⟨-, n, hn, -, rfl, hroot, hkids⟩ := ht
    obtain ⟨i, hi⟩ := List.getElem?_of_mem hn
    rw [L.value_eq, representsAll_value h ts n.kids hkids, ← h.node i n hi]
    exact h.one n.cls (h.whole.stored.cls i n hi).1 c hc hroot

theorem representsAll_value {g : EGraph} {excl : Int × Int} (h : Valued L ν g) : ∀ (ts : List EgTerm) (cs : List Nat),
    RepresentsAll g excl ts cs → ts.map L.value = cs.map ν
  | [], [], _ => rfl
  | t :: ts, c :: cs, hts => by
    unfold RepresentsAll at hts
    rw [List.map_cons, List.map_cons, represents_value h t c hts.1, representsAll_value h ts cs hts.2]
  | [], _ :: _, hts => by
    unfold RepresentsAll at hts
    exact hts.elim
  | _ :: _, [], hts => by
    unfold RepresentsAll at hts
    exact hts.elim

end

/-- An extraction that ends is the one that more fuel gives. -/
theorem extractExcluding_settles {cost : EgCostFn} {excl : Int × Int} {fuel id : Nat} {g : EGraph}
    {r : Option EgExtractResult × EGraph} (h : egExtractExcluding cost excl fuel g id = some r) :
    Settles (fun fuel => egExtractExcluding cost excl fuel g id) r := by
  unfold egExtractExcluding at h ⊢
  rw [Option.bind_eq_some_iff] at h
  obtain ⟨⟨plan, g₁⟩, hprepare, hfrom⟩ := h
  have hfirst : Settles (fun fuel => egExtractPrepare cost excl fuel g) (plan, g₁) := by
    unfold egExtractPrepare at hprepare ⊢
    dsimp only at hprepare ⊢
    rw [Option.map_eq_some_iff] at hprepare
    obtain ⟨s, hloop, hs⟩ := hprepare
    rw [← hs]
    exact (settles_of_loop hloop).map fun s => (s.plan, s.graph)
  refine hfirst.bind ?_
  dsimp only at hfrom ⊢
  unfold egExtractFrom at hfrom ⊢
  split at hfrom
  · next hbad =>
    simp only [if_pos hbad]
    obtain rfl := Option.some.inj hfrom
    exact .const _
  · next hgood =>
    simp only [if_neg hgood]
    dsimp only at hfrom ⊢
    split at hfrom
    · next hnone =>
      simp only [if_pos hnone]
      obtain rfl := Option.some.inj hfrom
      exact .const _
    · next hsome =>
      simp only [if_neg hsome]
      rw [Option.map_eq_some_iff] at hfrom
      obtain ⟨w, hloop, rfl⟩ := hfrom
      exact (settles_of_loop hloop).map _

/-- What is extracted is one of the cheapest terms of the class, if it represents one. -/
theorem extraction_of_run {cost : EgCostFn} {excl : Int × Int} {fuel id : Nat} {g g' : EGraph} (hg : Stored g)
    {out : Option EgExtractResult} (h : egExtractExcluding cost excl fuel g id = some (out, g')) :
    (out.isSome ↔ ∃ t, Represents g excl t id) ∧ ∀ r, out = some r → Extraction g cost excl id r := by
  have hsettles := extractExcluding_settles h
  unfold egExtractExcluding at h
  rw [Option.bind_eq_some_iff] at h
  obtain ⟨_, hrun, -⟩ := h
  obtain ⟨plan, g₁, hprepare, hs, hlen, hC⟩ := prepare_settles hg (bounded_of_prepare hg hrun)
  obtain ⟨out', g₂, hfrom, hextraction⟩ := extractFrom_settles hg hs hlen hC id
  obtain ⟨rfl, -⟩ := Prod.mk.inj (hsettles.unique (hprepare.bind hfrom))
  exact hextraction

/-- **What is extracted after any calls** has the value of what the class represented before them, and costs no more. -/
theorem optimised_means [DecidableEq D] (hL : L.Describes an aux) (han : Contract an)
    (hrules : ∀ rule ∈ rules, rule.Holds L an) (hbefore : Calls an aux rules noNodes s) (hlater : Calls an aux rules s s')
    {t : EgTerm} {excl : Int × Int} {id : Nat} (ht : Represents s.graph excl t id) {cost : EgCostFn} {fuel : Nat}
    {out : Option EgExtractResult} {g : EGraph}
    (hrun : egExtractExcluding cost excl fuel s'.graph id = some (out, g)) :
    ∃ r u, out = some r ∧ Spells r u r.root ∧ L.value u = L.value t ∧ treeCost cost u ≤ treeCost cost t := by
  obtain ⟨ν₁, hfirst⟩ := hbefore.later hL han hrules (noNodes_sense fun _ => L.value t)
  obtain ⟨ν₂, hrest⟩ := hlater.later hL han hrules hfirst.sense
  have hg := hfirst.sense.valued.whole.stored
  have hkept := represents_retained hg hrest.retains ht
  obtain ⟨hsome, hextraction⟩ := extraction_of_run hrest.sense.valued.whole.stored hrun
  obtain ⟨r, rfl⟩ := Option.isSome_iff_exists.mp (hsome.mpr ⟨t, hkept⟩)
  obtain ⟨u, hspells, hrepresents, hcheapest⟩ := (hextraction r rfl).cheapest
  refine ⟨r, u, rfl, hspells, ?_, hcheapest t hkept⟩
  rw [represents_value hrest.sense.valued u id hrepresents, represents_value hfirst.sense.valued t id ht]
  exact hrest.kept id (ht.lt hg)

/-! ## A sum -/

/-- Add(Const[0], A). -/
def zeroSum : EgTerm := .mk (OP_ADD, 0) [.mk (OP_CONST, 0) [], .mk (OP_A, 0) []]

/-- The graph with its operands. -/
def operands : Analysed (Option Int) := (addFact knownConst (addFact knownConst noNodes OP_CONST 0 []).2 OP_A 0 []).2

/-- The graph with the sum. -/
def zeroSumGraph : Analysed (Option Int) := (addFact knownConst operands OP_ADD 0 [0, 1]).2

theorem zeroSum_represented : Represents zeroSumGraph.graph (-1, 0) zeroSum 2 := by
  have hnone : Whole (noNodes (D := Option Int)).graph := ⟨_, _, noHistory_ok.toKept⟩
  have hconst : Reachable knownConst (addFact knownConst noNodes OP_CONST 0 []).2 := .add _ _ _ .init
  have hoperands : Reachable knownConst operands := .add _ _ _ hconst
  have hwhole := hconst.whole knownConst_contract
  have hfirst : Represents (addFact knownConst noNodes OP_CONST 0 []).2.graph (-1, 0) (.mk (OP_CONST, 0) []) 0 :=
    addFact_represents knownConst_contract hnone (by decide) (by unfold RepresentsAll; trivial) (by decide +kernel)
  have hsecond : Represents operands.graph (-1, 0) (.mk (OP_A, 0) []) 1 :=
    addFact_represents knownConst_contract hwhole (by decide) (by unfold RepresentsAll; trivial) (by decide +kernel)
  have hretains : Retains (addFact knownConst noNodes OP_CONST 0 []).2.graph operands.graph :=
    .trans hwhole.stored (Onward.add hwhole OP_A 0 []).whole.stored (.add hwhole OP_A 0 [])
      (addFact_retains knownConst_contract hwhole OP_A 0 [])
  refine addFact_represents knownConst_contract (hoperands.whole knownConst_contract) (by decide) ?_ (by decide +kernel)
  unfold RepresentsAll RepresentsAll RepresentsAll
  exact ⟨represents_retained hwhole.stored hretains hfirst, hsecond, trivial⟩

def sumRules : List (RewriteRule (Option Int)) := [commute, plusNothing]

/-- A term costs as many as it has nodes. -/
def countCost : EgCostFn := fun _ _ => ⟨1, by decide⟩

/-- What is left of the sum is A. -/
theorem zeroSum_optimised : ∃ rounds s' r u,
    egSaturate (rewriteRound knownConst noHelp sumRules) (rebuildFacts knownConst 20) eightRounds zeroSumGraph =
        some (rounds, s') ∧
      (egExtractExcluding countCost (-1, 0) 20 s'.graph 2).map Prod.fst = some (some r) ∧ r.ops = [OP_A] ∧
        Spells r u r.root ∧ arith.value u = arith.value zeroSum := by
  have hends : (egSaturate (rewriteRound knownConst noHelp sumRules) (rebuildFacts knownConst 20) eightRounds
      zeroSumGraph).bind (fun p => (egExtractExcluding countCost (-1, 0) 20 p.2.graph 2).map fun q =>
        q.1.map EgExtractResult.ops) = some (some [OP_A]) := by decide +kernel
  obtain ⟨⟨rounds, s'⟩, hrun, hextract⟩ := Option.bind_eq_some_iff.mp hends
  obtain ⟨⟨out, g⟩, hextract, hout⟩ := Option.map_eq_some_iff.mp hextract
  dsimp only at hextract hout
  have hbefore : Calls knownConst noHelp sumRules noNodes zeroSumGraph :=
    .add OP_ADD 0 [0, 1] (.add OP_A 0 [] (.add OP_CONST 0 [] .done))
  have hrules : ∀ rule ∈ sumRules, rule.Holds arith knownConst := by
    intro rule hrule
    rcases List.mem_cons.mp hrule with rfl | hrule
    · exact commute_holds
    · obtain rfl := List.mem_singleton.mp hrule
      exact plusNothing_holds
  obtain ⟨r, u, rfl, hspells, hvalue, -⟩ := optimised_means arith_describes knownConst_contract hrules hbefore
    (.saturate 20 eightRounds .done hrun) zeroSum_represented hextract
  refine ⟨rounds, s', r, u, hrun, by rw [hextract, Option.map_some], Option.some.inj hout, hspells, hvalue⟩

end Bbq.Egraph
