import Bbq.Egraph.Prepare
import Bbq.Egraph.Meaning

/-!
# Terms that a class represents

* `Represents`: a term of live nodes, none of them the excluded one. `treeCost` is its cost, a shared part counted
  as often as it is used.
* `least`: a solved table has for each class no more than the cost of any of its terms.
* `Spells`: what is written in the arrays of a result.
-/

namespace Bbq.Egraph

open Bbq.Lib Bbq.Lib.Sweep

variable {cost : EgCostFn} {excl : Int × Int} {g g' : EGraph}

mutual

/-- The class represents the term, without the excluded node. -/
def Represents (g : EGraph) (excl : Int × Int) : EgTerm → Nat → Prop
  | .mk label ts, c => label ≠ excl ∧ ∃ n ∈ g.nodes, n.live = true ∧ (n.op, n.data) = label ∧
    root g.parent n.cls = root g.parent c ∧ RepresentsAll g excl ts n.kids

def RepresentsAll (g : EGraph) (excl : Int × Int) : List EgTerm → List Nat → Prop
  | [], [] => True
  | t :: ts, c :: cs => Represents g excl t c ∧ RepresentsAll g excl ts cs
  | _, _ => False

end

mutual

/-- The cost of a term. -/
def treeCost (cost : EgCostFn) : EgTerm → Nat
  | .mk label ts => cost label.1 label.2 + treeCosts cost ts

def treeCosts (cost : EgCostFn) : List EgTerm → Nat
  | [] => 0
  | t :: ts => treeCost cost t + treeCosts cost ts

end

theorem represents_root (hg : Grove g.parent) {t : EgTerm} {c : Nat} :
    Represents g excl t (root g.parent c) ↔ Represents g excl t c := by
  cases t with
  | mk label ts =>
    unfold Represents
    rw [hg.root_root]

/-! ## The least cost -/

mutual

/-- **No term is cheaper than the table says.** -/
theorem least {C : Costs Nat} (hC : Solved (ruleOf g cost excl) C) : ∀ (t : EgTerm) (c : Nat), Represents g excl t c →
    ∃ v ≤ treeCost cost t, C.cost (root g.parent c) = some v
  | .mk label ts, c, h => by
    unfold Represents at h
    obtain ⟨hexcl, n, hmem, hlive, rfl, hroot, hkids⟩ := h
    obtain ⟨i, hn⟩ := List.getElem?_of_mem hmem
    obtain ⟨v, hv, htotal⟩ := leasts hC ts n.kids (cost n.op n.data) hkids
    obtain ⟨w, hw, hcost⟩ := hC.least i _ v (ruleOf_eq hn hlive hexcl) htotal
    rw [← hroot]
    refine ⟨w, hw.trans ?_, hcost⟩
    unfold treeCost
    exact hv

theorem leasts {C : Costs Nat} (hC : Solved (ruleOf g cost excl) C) : ∀ (ts : List EgTerm) (cs : List Nat) (sum : Nat),
    RepresentsAll g excl ts cs → ∃ v ≤ sum + treeCosts cost ts, C.total sum (cs.map (root g.parent)) = some v
  | [], [], sum, _ => ⟨sum, Nat.le_add_right sum _, rfl⟩
  | t :: ts, c :: cs, sum, h => by
    unfold RepresentsAll at h
    obtain ⟨v, hv, hcost⟩ := least hC t c h.1
    obtain ⟨w, hw, htotal⟩ := leasts hC ts cs (sum + v) h.2
    refine ⟨w, ?_, ?_⟩
    · unfold treeCosts
      omega
    · rw [List.map_cons]
      unfold Costs.total
      rw [hcost, Option.bind_some, htotal]
  | [], _ :: _, _, h => by
    unfold RepresentsAll at h
    exact h.elim
  | _ :: _, [], _, h => by
    unfold RepresentsAll at h
    exact h.elim

end

/-! ## Results -/

mutual

/-- The term that is written from index `i` on. -/
def Spells (r : EgExtractResult) : EgTerm → Nat → Prop
  | .mk label ts, i => r.ops[i]? = some label.1 ∧ r.data[i]? = some label.2 ∧ r.nkids[i]? = some ts.length ∧
    ∃ off, r.kid_off[i]? = some off ∧ SpellsAll r ts off

/-- The terms whose indices are written from `off` on. -/
def SpellsAll (r : EgExtractResult) : List EgTerm → Nat → Prop
  | [], _ => True
  | t :: ts, off => (∃ k, r.kids[off]? = some k ∧ Spells r t k) ∧ SpellsAll r ts (off + 1)

end

/-- What was written is still there. -/
structure Longer (r r' : EgExtractResult) : Prop where
  ops : r.ops <+: r'.ops
  data : r.data <+: r'.data
  kid_off : r.kid_off <+: r'.kid_off
  nkids : r.nkids <+: r'.nkids
  kids : r.kids <+: r'.kids

theorem getElem?_longer {α : Type} {xs ys : List α} (h : xs <+: ys) {i : Nat} {v : α} (hv : xs[i]? = some v) :
    ys[i]? = some v := by
  obtain ⟨zs, rfl⟩ := h
  rw [List.getElem?_append_left (List.getElem?_eq_some_iff.mp hv).1]
  exact hv

mutual

theorem Spells.longer {r r' : EgExtractResult} (h : Longer r r') : ∀ {t : EgTerm} {i : Nat}, Spells r t i → Spells r' t i
  | .mk label ts, i, ht => by
    unfold Spells at ht ⊢
    obtain ⟨hop, hdata, hnkids, off, hoff, hkids⟩ := ht
    exact ⟨getElem?_longer h.ops hop, getElem?_longer h.data hdata, getElem?_longer h.nkids hnkids, off,
      getElem?_longer h.kid_off hoff, SpellsAll.longer h hkids⟩

theorem SpellsAll.longer {r r' : EgExtractResult} (h : Longer r r') :
    ∀ {ts : List EgTerm} {off : Nat}, SpellsAll r ts off → SpellsAll r' ts off
  | [], _, _ => by
    unfold SpellsAll
    trivial
  | t :: ts, off, hts => by
    unfold SpellsAll at hts ⊢
    obtain ⟨⟨k, hk, ht⟩, hts⟩ := hts
    exact ⟨⟨k, getElem?_longer h.kids hk, Spells.longer h ht⟩, SpellsAll.longer h hts⟩

end

/-- Children written one after the other. -/
theorem spellsAll_of_forall₂ {r : EgExtractResult} {ts : List EgTerm} {ks : List Nat}
    (h : List.Forall₂ (Spells r) ts ks) {off : Nat} (hkids : ∀ (j k : Nat), ks[j]? = some k → r.kids[off + j]? = some k) :
    SpellsAll r ts off := by
  induction h generalizing off with
  | nil =>
    unfold SpellsAll
    trivial
  | @cons t k ts ks ht _ ih =>
    unfold SpellsAll
    refine ⟨⟨k, hkids 0 k rfl, ht⟩, ih fun j k' hk' => ?_⟩
    rw [Nat.add_assoc, Nat.add_comm 1 j]
    exact hkids (j + 1) k' hk'

end Bbq.Egraph
