import Bbq.Egraph.Walk
import Bbq.Egraph.Grow

/-!
# Extraction is optimal

* `Made`: the graphs that calls leave, in any order and with any analysis. The hooks of one work through the same
  calls, and `eg_rebuild` is as many rounds as it takes, with such calls between them.
* `Extraction`: what a result is to be. It has one of the cheapest terms of the class.
* **`extracts_iff`**: extraction ends, gives such a result where the class represents a term and `false` where it does
  not, exactly if the sums of the sweeps fit a `long long`. They are sums over trees: sharing doubles them at each
  level (`deepSum_overflows`).
-/

namespace Bbq.Egraph

open Bbq.Lib Bbq.Lib.Sweep

variable {cost : EgCostFn} {excl : Int × Int} {g g' : EGraph} {plan : EgExtractPlan}

/-- A graph made by calls. -/
inductive Made : EGraph → Prop
  | init : Made egInit
  | find {g : EGraph} (x : Nat) (h : Made g) : Made (egFind g x).2
  | add {g : EGraph} (op data : Int) (kids : List Nat) (h : Made g) : Made (egAdd g op data kids).2
  | merge {g : EGraph} (a b : Nat) (h : Made g) : Made (egMerge g a b).2
  | round {g : EGraph} (h : Made g) : Made (rebuildRound g)

theorem Made.whole (h : Made g) : Whole g := by
  induction h with
  | init => exact ⟨_, _, noHistory_ok.toKept⟩
  | find x _ ih => exact (Onward.find ih x).whole
  | add op data kids _ ih => exact (Onward.add ih op data kids).whole
  | merge a b _ ih => exact (Onward.merge ih a b).whole
  | round _ ih => exact ih.rebuildRound

/-- `out` is extracted for `id`. -/
structure Extraction (g : EGraph) (cost : EgCostFn) (excl : Int × Int) (id : Nat) (out : EgExtractResult) : Prop where
  inOrder : InOrder excl out
  root : out.root < out.count
  /-- There was room in the arrays: a node for each class, and the children of all nodes. -/
  count : out.count ≤ g.classes.length
  kids : out.kids.length ≤ (g.nodes.map fun n => n.kids.length).sum + 1
  cheapest : ∃ t, Spells out t out.root ∧ Represents g excl t id ∧
    ∀ u, Represents g excl u id → treeCost cost t ≤ treeCost cost u

/-- `eg_extract_excluding` does what it is to do. -/
def Extracts (g : EGraph) (cost : EgCostFn) (excl : Int × Int) (id : Nat) : Prop :=
  ∃ out g', Settles (fun fuel => egExtractExcluding cost excl fuel g id) (out, g') ∧
    (out.isSome ↔ ∃ t, Represents g excl t id) ∧ ∀ r, out = some r → Extraction g cost excl id r

/-! ## Room -/

theorem sum_le_of_sublist {l l' : List Nat} (h : l.Sublist l') : l.sum ≤ l'.sum := by
  induction h with
  | slnil => exact le_refl _
  | cons a _ ih =>
    rw [List.sum_cons]
    omega
  | cons_cons a _ ih =>
    rw [List.sum_cons, List.sum_cons]
    omega

theorem sum_le_of_nodup {l : List Nat} {n : Nat} (hl : l.Nodup) (hn : ∀ i ∈ l, i < n) (f : Nat → Nat) :
    (l.map f).sum ≤ ((List.range n).map f).sum := by
  obtain ⟨l', hperm, hsub⟩ := List.subperm_of_subset hl fun i hi => List.mem_range.mpr (hn i hi)
  rw [(hperm.map f).symm.sum_nat]
  exact sum_le_of_sublist (hsub.map f)

theorem sum_kidCount (g : EGraph) :
    ((List.range g.nodes.length).map (kidCount g)).sum = (g.nodes.map fun n => n.kids.length).sum := by
  congr 1
  refine List.ext_getElem (by simp) fun i hi hi' => ?_
  have hlt : i < g.nodes.length := by simpa using hi
  rw [List.getElem_map, List.getElem_map, List.getElem_range]
  unfold kidCount
  rw [List.getElem?_eq_getElem hlt, Option.map_some, Option.getD_some]

/-! ## Extraction from a table -/

/-- What stands in the table has a term. -/
theorem Walked.extraction (hg : Stored g) {chosen : List Nat} {w : Walk} (hw : Walked g cost excl plan chosen w)
    (hC : Solved (ruleOf g cost excl) plan.costs) {r idx : Nat}
    (hidx : w.memo.getD (root g.parent r) none = some idx) : Extraction g cost excl r { w.out with root := idx } := by
  obtain ⟨hlt, t, ht, hrep, hcost⟩ := hw.written _ idx hidx
  have hchosen : ∀ i ∈ chosen, i < g.nodes.length := fun i hi => (hw.best i hi).1
  have hlen := (List.subperm_of_subset hw.nodup fun i hi => List.mem_range.mpr (hchosen i hi)).length_le
  have hsum := sum_le_of_nodup hw.nodup hchosen (kidCount g)
  rw [sum_kidCount] at hsum
  rw [List.length_range, hg.nodes] at hlen
  refine ⟨{ hw.inOrder with }, hlt, ?_, ?_, t, ?_, (represents_root hg.grove).mp hrep, fun u hu => ?_⟩
  · change w.out.count ≤ _
    rw [hw.count, hg.classes]
    exact hlen
  · change w.out.kids.length ≤ _
    rw [hw.total]
    omega
  · have hsame : Longer w.out { w.out with root := idx } :=
      ⟨List.prefix_refl _, List.prefix_refl _, List.prefix_refl _, List.prefix_refl _, List.prefix_refl _⟩
    exact ht.longer hsame
  · obtain ⟨v, hv, hleast⟩ := least hC u r hu
    rw [hcost] at hleast
    obtain rfl := Option.some.inj hleast
    exact hv

/-- **Extraction from a solved table.** -/
theorem extractFrom_settles (hg : Stored g) (hs : Same g g') (hlen : plan.cost.length = g.parent.length)
    (hC : Solved (ruleOf g cost excl) plan.costs) (r : Nat) :
    ∃ out g'', Settles (fun fuel => egExtractFrom fuel g' plan r) (out, g'') ∧
      (out.isSome ↔ ∃ t, Represents g excl t r) ∧ ∀ o, out = some o → Extraction g cost excl r o := by
  have hvalid : egValid g' r ↔ r < g.parent.length := by
    unfold egValid
    rw [hs.halved.length]
  by_cases hr : r < g.parent.length
  · have hfind := egFind_same hs.halved.grove r
    cases hcost : plan.cost.getD (root g.parent r) none with
    | none =>
      refine ⟨none, (egFind g' r).2, .of_forall fun fuel => ?_, ⟨fun h => (by cases h), fun h => ?_⟩,
        fun o h => (by cases h)⟩
      · unfold egExtractFrom
        rw [if_neg (by rw [hvalid, hlen]; omega)]
        dsimp only
        rw [egFind_fst, hs.halved.root, hcost]
        rfl
      · obtain ⟨t, ht⟩ := h
        obtain ⟨v, -, hv⟩ := least hC t r ht
        exact absurd (hcost.symm.trans hv) (by simp)
    | some v =>
      have hc : plan.costs.cost (root g.parent r) ≠ none := fun h => by
        rw [show plan.costs.cost (root g.parent r) = some v from hcost] at h
        cases h
      obtain ⟨chosen, w, ⟨k, hk⟩, hw, hstack, hdone, -⟩ := visit hg hC (root g.parent r) hc [] _ (root g.parent r) []
        (walked_nil (hs.trans hfind) hlen [root g.parent r]) rfl (hg.grove.root_root r)
      obtain ⟨idx, hidx⟩ := Option.isSome_iff_exists.mp hdone
      refine ⟨some { w.out with root := idx }, w.graph, ⟨k + 1, fun fuel hfuel => ?_⟩, ⟨fun _ => ?_, fun _ => rfl⟩,
        fun o ho => ?_⟩
      · obtain ⟨rest, rfl⟩ : ∃ rest, fuel = k + (rest + 1) := ⟨fuel - k - 1, by omega⟩
        have hleave : walkTurn plan w = some (.inr w) := by
          unfold walkTurn
          rw [hstack]
        have hrun : loop (walkTurn plan) (rest + 1) w = some w := by
          rw [loop, hleave, Option.bind_some]
        change egExtractFrom (k + (rest + 1)) g' plan r = _
        unfold egExtractFrom
        rw [if_neg (by rw [hvalid, hlen]; omega)]
        dsimp only
        rw [egFind_fst, hs.halved.root, hcost, if_neg (by simp), hk, hrun, Option.map_some, hidx]
        rfl
      · obtain ⟨-, t, -, ht, -⟩ := hw.written _ idx hidx
        exact ⟨t, (represents_root hg.grove).mp ht⟩
      · obtain rfl := Option.some.inj ho
        exact hw.extraction hg hC hidx
  · refine ⟨none, g', .of_forall fun fuel => ?_, ⟨fun h => (by cases h), fun h => ?_⟩, fun o h => (by cases h)⟩
    · unfold egExtractFrom
      rw [if_pos (.inl (by rw [hvalid]; exact hr))]
    · obtain ⟨⟨label, ts⟩, ht⟩ := h
      unfold Represents at ht
      obtain ⟨-, n, hn, -, -, hroot, -⟩ := ht
      obtain ⟨i, hi⟩ := List.getElem?_of_mem hn
      have hlt := hg.grove.root_lt (hg.cls i n hi).1
      rw [hroot, root_beyond hg.grove (not_lt.mp hr)] at hlt
      exact absurd hlt hr

/-- **Extraction is optimal exactly as long as the sums fit.** -/
theorem extracts_iff (h : Made g) (cost : EgCostFn) (excl : Int × Int) (id : Nat) :
    Extracts g cost excl id ↔ Bounded (ruleOf g cost excl) g.nodes.length llongTop := by
  have hg := h.whole.stored
  constructor
  · rintro ⟨out, g', hsettles, -, -⟩
    obtain ⟨fuel, hrun⟩ := hsettles.ends
    unfold egExtractExcluding at hrun
    rw [Option.bind_eq_some_iff] at hrun
    obtain ⟨r, hprepare, -⟩ := hrun
    exact bounded_of_prepare hg hprepare
  · intro hbounded
    obtain ⟨plan, g', hprepare, hs, hlen, hC⟩ := prepare_settles hg hbounded
    obtain ⟨out, g'', hfrom, hsome, hextraction⟩ := extractFrom_settles hg hs hlen hC id
    exact ⟨out, g'', hprepare.bind hfrom, hsome, hextraction⟩

/-- `a + a` for each `a` before it. -/
def deepSum : Nat → EGraph
  | 0 => (egAdd egInit 0 0 []).2
  | n + 1 => (egAdd (deepSum n) 1 0 [n, n]).2

theorem deepSum_made (n : Nat) : Made (deepSum n) := by
  induction n with
  | zero => exact .add 0 0 [] .init
  | succ n ih => exact .add 1 0 [n, n] ih

/-- `2 ^ 30` for a leaf, and nothing for a sum. -/
def leafCost : EgCostFn := fun op _ => if op = 0 then ⟨1073741824, by decide⟩ else ⟨0, by decide⟩

/-- Thirty-three sums over a leaf of cost `2 ^ 30`. -/
theorem deepSum_overflows : Made (deepSum 33) ∧ ¬ Extracts (deepSum 33) leafCost (-1, 0) 33 := by
  refine ⟨deepSum_made 33, fun h => ?_⟩
  have hfits := (extracts_iff (deepSum_made 33) leafCost (-1, 0) 33).mp h 33
  have hlt := hfits ⟨33, 0, [32, 32]⟩ (by decide +kernel) (2 ^ 63) (by decide +kernel)
  exact absurd hlt (by decide)

/-- One sum is emitted behind its leaf, which is written once. -/
example : (egExtractExcluding leafCost (-1, 0) 6 (deepSum 1) 1).map (fun r => r.1.map fun o =>
    (o.ops, o.kids, o.root)) = some (some ([0, 1], [0, 0], 1)) := by
  decide +kernel

end Bbq.Egraph
