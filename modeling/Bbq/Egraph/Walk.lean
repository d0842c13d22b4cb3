import Bbq.Egraph.Represent

/-!
# The walk over the chosen nodes

* `Walked`: the invariant of the walk. A class that has been emitted is written as one of its terms, and that is one
  of the cost in the table; no node is written twice.
* **`visit`**: a class on top of the stack is emitted, and what was below it is on top then. The induction is on the
  chosen nodes, which are well founded.
* **`walk_settles`**: the walk from a class that has a cost ends.
-/

namespace Bbq.Egraph

open Bbq.Lib Bbq.Lib.Sweep

variable {cost : EgCostFn} {excl : Int × Int} {g g' : EGraph} {plan : EgExtractPlan}

/-- The number of children of node `i`. -/
def kidCount (g : EGraph) (i : Nat) : Nat := ((g.nodes[i]?).map fun n => n.kids.length).getD 0

/-- The arrays go together, children are written before their parents, and the excluded node is nowhere. -/
structure InOrder (excl : Int × Int) (r : EgExtractResult) : Prop where
  ops : r.ops.length = r.count
  data : r.data.length = r.count
  kid_off : r.kid_off.length = r.count
  nkids : r.nkids.length = r.count
  kids : ∀ i off n : Nat, r.kid_off[i]? = some off → r.nkids[i]? = some n →
    ∀ j < n, ∃ k < i, r.kids[off + j]? = some k
  excluded : ∀ (i : Nat) (op data : Int), r.ops[i]? = some op → r.data[i]? = some data → (op, data) ≠ excl

/-- `chosen` has been written, one after the other. -/
structure Walked (g : EGraph) (cost : EgCostFn) (excl : Int × Int) (plan : EgExtractPlan) (chosen : List Nat)
    (w : Walk) : Prop where
  same : Same g w.graph
  memo : w.memo.length = g.parent.length
  inOrder : InOrder excl w.out
  nodup : chosen.Nodup
  best : ∀ i ∈ chosen, i < g.nodes.length ∧ ∃ c, (w.memo.getD c none).isSome ∧ plan.costs.best c = some i
  count : w.out.count = chosen.length
  total : w.out.kids.length = (chosen.map (kidCount g)).sum
  written : ∀ c idx, w.memo.getD c none = some idx → idx < w.out.count ∧ ∃ t, Spells w.out t idx ∧
    Represents g excl t c ∧ plan.costs.cost c = some (treeCost cost t)

/-- What has been emitted stays so. -/
def Extends (w w' : Walk) : Prop := ∀ c, (w.memo.getD c none).isSome → (w'.memo.getD c none).isSome

/-- After some turns the loop is where `w'` is. -/
def Reaches (plan : EgExtractPlan) (w w' : Walk) : Prop :=
  ∃ k, ∀ fuel, loop (walkTurn plan) (k + fuel) w = loop (walkTurn plan) fuel w'

namespace Reaches

variable {w w₁ w₂ : Walk}

theorem refl (w : Walk) : Reaches plan w w := ⟨0, fun fuel => by rw [Nat.zero_add]⟩

theorem trans (h : Reaches plan w w₁) (h' : Reaches plan w₁ w₂) : Reaches plan w w₂ := by
  obtain ⟨k, hk⟩ := h
  obtain ⟨k', hk'⟩ := h'
  exact ⟨k + k', fun fuel => by rw [Nat.add_assoc, hk, hk']⟩

theorem of_turn (h : walkTurn plan w = some (.inl w₁)) : Reaches plan w w₁ :=
  ⟨1, fun fuel => by rw [Nat.add_comm, loop, h, Option.bind_some]⟩

end Reaches

/-! ## One more node -/

/-- The result with one more node. -/
def EgExtractResult.push (r : EgExtractResult) (n : EgNode) (ks : List Nat) : EgExtractResult :=
  { ops := r.ops ++ [n.op]
    data := r.data ++ [n.data]
    kid_off := r.kid_off ++ [r.kids.length]
    nkids := r.nkids ++ [n.kids.length]
    kids := r.kids ++ ks
    count := r.count + 1
    root := r.root }

theorem longer_push (r : EgExtractResult) (n : EgNode) (ks : List Nat) : Longer r (r.push n ks) :=
  ⟨List.prefix_append _ _, List.prefix_append _ _, List.prefix_append _ _, List.prefix_append _ _,
    List.prefix_append _ _⟩

/-- An entry of an array with one more is an old one or the new one. -/
theorem getElem?_concat {α : Type} {xs : List α} {x v : α} {i : Nat} (h : (xs ++ [x])[i]? = some v) :
    xs[i]? = some v ∨ i = xs.length ∧ v = x := by
  rcases Nat.lt_trichotomy i xs.length with hlt | rfl | hgt
  · rw [List.getElem?_append_left hlt] at h
    exact .inl h
  · rw [List.getElem?_concat_length] at h
    exact .inr ⟨rfl, (Option.some.inj h).symm⟩
  · have hlen := (List.getElem?_eq_some_iff.mp h).1
    rw [List.length_append, List.length_singleton] at hlen
    omega

theorem InOrder.push {r : EgExtractResult} (h : InOrder excl r) {n : EgNode} (hn : (n.op, n.data) ≠ excl) {ks : List Nat}
    (hlen : ks.length = n.kids.length) (hks : ∀ k ∈ ks, k < r.count) : InOrder excl (r.push n ks) where
  ops := by
    unfold EgExtractResult.push
    rw [List.length_append, h.ops, List.length_singleton]
  data := by
    unfold EgExtractResult.push
    rw [List.length_append, h.data, List.length_singleton]
  kid_off := by
    unfold EgExtractResult.push
    rw [List.length_append, h.kid_off, List.length_singleton]
  nkids := by
    unfold EgExtractResult.push
    rw [List.length_append, h.nkids, List.length_singleton]
  kids := by
    intro i off m hoff hm j hj
    rcases getElem?_concat hoff with hoff' | ⟨hi, rfl⟩
    · have hi : i < r.count := by
        rw [← h.kid_off]
        exact (List.getElem?_eq_some_iff.mp hoff').1
      rcases getElem?_concat hm with hm' | ⟨hi', -⟩
      · obtain ⟨k, hk, hget⟩ := h.kids i off m hoff' hm' j hj
        exact ⟨k, hk, getElem?_longer (List.prefix_append _ _) hget⟩
      · rw [h.nkids] at hi'
        omega
    · rcases getElem?_concat hm with hm' | ⟨-, rfl⟩
      · have hlt := (List.getElem?_eq_some_iff.mp hm').1
        rw [h.nkids] at hlt
        rw [h.kid_off] at hi
        omega
      · rw [← hlen] at hj
        refine ⟨ks[j], ?_, ?_⟩
        · rw [hi, h.kid_off]
          exact hks _ (List.getElem_mem hj)
        · unfold EgExtractResult.push
          rw [List.getElem?_append_right (Nat.le_add_right _ j), Nat.add_sub_cancel_left, List.getElem?_eq_getElem hj]
  excluded := by
    intro i op data hop hdata
    rcases getElem?_concat hop with hop' | ⟨hi, rfl⟩
    · rcases getElem?_concat hdata with hdata' | ⟨hi', -⟩
      · exact h.excluded i op data hop' hdata'
      · have hlt := (List.getElem?_eq_some_iff.mp hop').1
        rw [h.ops] at hlt
        rw [h.data] at hi'
        omega
    · rcases getElem?_concat hdata with hdata' | ⟨-, rfl⟩
      · have hlt := (List.getElem?_eq_some_iff.mp hdata').1
        rw [h.data] at hlt
        rw [h.ops] at hi
        omega
      · exact hn

theorem getElem?_last {α : Type} {xs : List α} {x : α} {i : Nat} (h : xs.length = i) : (xs ++ [x])[i]? = some x := by
  rw [← h, List.getElem?_concat_length]

/-- The node chosen for a class. -/
structure Chosen (g : EGraph) (cost : EgCostFn) (excl : Int × Int) (plan : EgExtractPlan) (c i : Nat) (n : EgNode) :
    Prop where
  best : plan.costs.best c = some i
  node : g.nodes[i]? = some n
  live : n.live = true
  allowed : (n.op, n.data) ≠ excl
  cls : root g.parent n.cls = c
  total : plan.costs.total (cost n.op n.data) (n.kids.map (root g.parent)) = plan.costs.cost c
  rule : ruleOf g cost excl i =
    some { target := root g.parent n.cls, weight := cost n.op n.data, sources := n.kids.map (root g.parent) }

theorem exists_chosen (hC : Solved (ruleOf g cost excl) plan.costs) {c : Nat} (hc : plan.costs.cost c ≠ none) :
    ∃ i n, Chosen g cost excl plan c i n := by
  obtain ⟨i, hi⟩ := Option.ne_none_iff_exists'.mp (mt (hC.unset c).mp hc)
  obtain ⟨r, hr, htarget, htotal⟩ := hC.exact c i hi
  obtain ⟨n, hn, hlive, hexcl, rfl⟩ := ruleOf_some hr
  exact ⟨i, n, hi, hn, hlive, hexcl, htarget, htotal, hr⟩

section Emit

variable {chosen : List Nat} {w : Walk} {c i : Nat} {n : EgNode} {ts : List EgTerm} {ks : List Nat}

theorem Chosen.represents (hn : Chosen g cost excl plan c i n) (hg : Grove g.parent)
    (hts : RepresentsAll g excl ts n.kids) : Represents g excl (.mk (n.op, n.data) ts) c := by
  unfold Represents
  refine ⟨hn.allowed, n, List.mem_of_getElem? hn.node, hn.live, rfl, ?_, hts⟩
  rw [← hn.cls, hg.root_root]

theorem spells_push {r : EgExtractResult} (h : InOrder excl r) (hspells : List.Forall₂ (Spells r) ts ks)
    (hlen : ks.length = n.kids.length) : Spells (r.push n ks) (.mk (n.op, n.data) ts) r.count := by
  unfold Spells
  refine ⟨getElem?_last h.ops, getElem?_last h.data, ?_, r.kids.length, getElem?_last h.kid_off, ?_⟩
  · rw [hspells.length_eq, hlen]
    exact getElem?_last h.nkids
  · refine spellsAll_of_forall₂ (hspells.imp fun t k ht => ht.longer (longer_push r n ks)) fun j k hk => ?_
    unfold EgExtractResult.push
    rw [List.getElem?_append_right (Nat.le_add_right _ j), Nat.add_sub_cancel_left, hk]

/-- **The invariant, with one more node.** -/
theorem Walked.push (hw : Walked g cost excl plan chosen w) (hg : Grove g.parent) (hn : Chosen g cost excl plan c i n)
    (hfresh : i ∉ chosen) (hc : c < w.memo.length) (hspells : List.Forall₂ (Spells w.out) ts ks)
    (hts : RepresentsAll g excl ts n.kids) (hlen : ks.length = n.kids.length) (hks : ∀ k ∈ ks, k < w.out.count)
    (htotal : plan.costs.cost c = some (cost n.op n.data + treeCosts cost ts)) {graph : EGraph} (hsame : Same g graph)
    (stack : List Nat) : Walked g cost excl plan (chosen ++ [i])
      { graph, memo := w.memo.set c (some w.out.count), stack, out := w.out.push n ks } where
  same := hsame
  memo := List.length_set.trans hw.memo
  inOrder := hw.inOrder.push hn.allowed hlen hks
  nodup := List.nodup_append.mpr ⟨hw.nodup, List.nodup_singleton i, fun a ha b hb hab => by
    rw [List.mem_singleton.mp hb] at hab
    exact hfresh (hab ▸ ha)⟩
  best := by
    intro j hj
    have hset := congrFun (getD_set w.memo hc (some w.out.count))
    rcases List.mem_append.mp hj with hj | hj
    · obtain ⟨hlt, c', hsome, hbest⟩ := hw.best j hj
      refine ⟨hlt, c', ?_, hbest⟩
      rw [hset]
      by_cases hc' : c' = c
      · rw [hc', Function.update_self]
        rfl
      · rw [Function.update_of_ne hc']
        exact hsome
    · obtain rfl := List.mem_singleton.mp hj
      refine ⟨(List.getElem?_eq_some_iff.mp hn.node).1, c, ?_, hn.best⟩
      rw [hset, Function.update_self]
      rfl
  count := by
    rw [List.length_append, List.length_singleton, ← hw.count]
    rfl
  total := by
    have hcount : kidCount g i = ks.length := by
      unfold kidCount
      rw [hn.node, Option.map_some, Option.getD_some, hlen]
    unfold EgExtractResult.push
    rw [List.length_append, hw.total, List.map_append, List.sum_append, List.map_cons, List.map_nil, List.sum_singleton,
      hcount]
  written := by
    intro c' idx hidx
    have hset := congrFun (getD_set w.memo hc (some w.out.count)) c'
    dsimp only at hset hidx
    rw [hset] at hidx
    by_cases hc' : c' = c
    · rw [hc', Function.update_self] at hidx
      obtain rfl := Option.some.inj hidx
      refine ⟨Nat.lt_succ_self _, .mk (n.op, n.data) ts, spells_push hw.inOrder hspells hlen, ?_, ?_⟩
      · rw [hc']
        exact hn.represents hg hts
      · rw [hc']
        unfold treeCost
        exact htotal
    · rw [Function.update_of_ne hc'] at hidx
      obtain ⟨hlt, t, ht, hrep, hcost⟩ := hw.written c' idx hidx
      exact ⟨Nat.lt_succ_of_lt hlt, t, ht.longer (longer_push w.out n ks), hrep, hcost⟩

end Emit

/-! ## One turn -/

theorem pendingKids_spec (hg : Grove g.parent) (memo : List (Option Nat)) (kids : List Nat) :
    (pendingKids memo g kids).1 = (kids.map (root g.parent)).filter (fun c => (memo.getD c none).isNone) ∧
      Same g (pendingKids memo g kids).2 := by
  induction kids generalizing g with
  | nil => exact ⟨rfl, .refl hg⟩
  | cons kid kids ih =>
    have hfind := egFind_same hg kid
    obtain ⟨hpending, hs⟩ := ih hfind.halved.grove
    have hroot : root (egFind g kid).2.parent = root g.parent := funext hfind.halved.root
    rw [hroot] at hpending
    refine ⟨?_, hfind.trans hs⟩
    unfold pendingKids
    dsimp only
    rw [hpending, egFind_fst, List.map_cons, List.filter_cons]

section Turns

variable (hg : Stored g) (hC : Solved (ruleOf g cost excl) plan.costs) {chosen : List Nat} {w : Walk} {top : Nat}
  {below : List Nat}

/-- A class that has been emitted is popped. -/
theorem walkTurn_pop (hw : Walked g cost excl plan chosen w) (hstack : w.stack = top :: below)
    (hmemo : (w.memo.getD (root g.parent top) none).isSome) :
    ∃ w', Reaches plan w w' ∧ Walked g cost excl plan chosen w' ∧ w'.stack = below ∧ w'.memo = w.memo := by
  have hfind := egFind_same hw.same.halved.grove top
  refine ⟨{ w with graph := (egFind w.graph top).2, stack := below }, .of_turn ?_, ?_, rfl, rfl⟩
  · unfold walkTurn
    rw [hstack]
    dsimp only
    rw [egFind_fst, hw.same.halved.root, if_pos hmemo]
  · exact { hw with same := hw.same.trans hfind }

/-- The children that have not been emitted are pushed. -/
theorem walkTurn_push (hw : Walked g cost excl plan chosen w) (hstack : w.stack = top :: below) {i : Nat} {n : EgNode}
    (hn : Chosen g cost excl plan (root g.parent top) i n) (hmemo : (w.memo.getD (root g.parent top) none).isNone)
    {pending : List Nat}
    (hpending : pending = (n.kids.map (root g.parent)).filter fun c => (w.memo.getD c none).isNone)
    (hne : pending ≠ []) : ∃ w', Reaches plan w w' ∧ Walked g cost excl plan chosen w' ∧
      w'.stack = pending.reverse ++ top :: below ∧ w'.memo = w.memo := by
  have hfind := egFind_same hw.same.halved.grove top
  obtain ⟨hkids, hs⟩ := pendingKids_spec hfind.halved.grove w.memo n.kids
  have hroot : root (egFind w.graph top).2.parent = root g.parent :=
    (funext hfind.halved.root).trans (funext hw.same.halved.root)
  rw [hroot, ← hpending] at hkids
  have hbest : (plan.best.getD (root g.parent top) none).bind ((egFind w.graph top).2.nodes[·]?) = some n := by
    rw [show plan.best.getD (root g.parent top) none = some i from hn.best, Option.bind_some, hfind.nodes, hw.same.nodes]
    exact hn.node
  refine ⟨{ w with
    graph := (pendingKids w.memo (egFind w.graph top).2 n.kids).2
    stack := pending.reverse ++ top :: below }, .of_turn ?_, ?_, rfl, rfl⟩
  · unfold walkTurn
    rw [hstack]
    dsimp only
    rw [egFind_fst, hw.same.halved.root, if_neg (by simpa using hmemo), hbest]
    dsimp only
    rw [hkids, if_pos hne]
  · exact { hw with same := hw.same.trans (hfind.trans hs) }

include hg in
/-- The terms the children have been written as. -/
theorem exists_terms (hw : Walked g cost excl plan chosen w) (kids : List Nat)
    (hkids : ∀ k ∈ kids, (w.memo.getD (root g.parent k) none).isSome) :
    ∃ ts, List.Forall₂ (Spells w.out) ts (kids.map fun k => (w.memo.getD (root g.parent k) none).getD 0) ∧
      RepresentsAll g excl ts kids ∧
        ∀ sum, plan.costs.total sum (kids.map (root g.parent)) = some (sum + treeCosts cost ts) := by
  induction kids with
  | nil =>
    refine ⟨[], .nil, ?_, fun sum => rfl⟩
    unfold RepresentsAll
    trivial
  | cons k kids ih =>
    obtain ⟨ts, hspells, hrepresents, htotal⟩ := ih fun k' hk' => hkids k' (List.mem_cons_of_mem k hk')
    obtain ⟨idx, hidx⟩ := Option.isSome_iff_exists.mp (hkids k List.mem_cons_self)
    obtain ⟨-, t, ht, hrep, hcost⟩ := hw.written _ idx hidx
    refine ⟨t :: ts, ?_, ?_, fun sum => ?_⟩
    · rw [List.map_cons, hidx]
      exact .cons ht hspells
    · unfold RepresentsAll
      exact ⟨(represents_root hg.grove).mp hrep, hrepresents⟩
    · rw [List.map_cons]
      unfold Costs.total treeCosts
      rw [hcost, Option.bind_some, htotal]
      congr 1
      omega

include hg hC in
/-- **A class whose children have been emitted is emitted.** -/
theorem walkTurn_emit (hw : Walked g cost excl plan chosen w) (hstack : w.stack = top :: below) {i : Nat} {n : EgNode}
    (hn : Chosen g cost excl plan (root g.parent top) i n) (hmemo : (w.memo.getD (root g.parent top) none).isNone)
    (hkids : ∀ k ∈ n.kids, (w.memo.getD (root g.parent k) none).isSome) :
    ∃ w', Reaches plan w w' ∧ Walked g cost excl plan (chosen ++ [i]) w' ∧ w'.stack = below ∧
      w'.memo = w.memo.set (root g.parent top) (some w.out.count) := by
  have hfind := egFind_same hw.same.halved.grove top
  obtain ⟨hpending, hs⟩ := pendingKids_spec hfind.halved.grove w.memo n.kids
  have hroot : root (egFind w.graph top).2.parent = root g.parent :=
    (funext hfind.halved.root).trans (funext hw.same.halved.root)
  have hnil : (pendingKids w.memo (egFind w.graph top).2 n.kids).1 = [] := by
    rw [hpending, hroot, List.filter_eq_nil_iff]
    intro c hc
    obtain ⟨k, hk, rfl⟩ := List.mem_map.mp hc
    have hsome := hkids k hk
    rw [Option.isSome_iff_ne_none] at hsome
    rw [Option.isNone_iff_eq_none]
    exact hsome
  obtain ⟨hroots, hs'⟩ := findAll_spec hs.halved.grove n.kids
  have hroot' : root (pendingKids w.memo (egFind w.graph top).2 n.kids).2.parent = root g.parent :=
    (funext hs.halved.root).trans hroot
  rw [hroot'] at hroots
  have hbest : (plan.best.getD (root g.parent top) none).bind ((egFind w.graph top).2.nodes[·]?) = some n := by
    rw [show plan.best.getD (root g.parent top) none = some i from hn.best, Option.bind_some, hfind.nodes, hw.same.nodes]
    exact hn.node
  have htop : root g.parent top < w.memo.length := by
    rw [hw.memo, ← hn.cls]
    exact hg.grove.root_lt (hg.cls i n hn.node).1
  -- the indices of the children, before and after the class itself has one
  have hindex : (n.kids.map (root g.parent)).map (fun cls =>
      ((w.memo.set (root g.parent top) (some w.out.count)).getD cls none).getD 0) =
        n.kids.map fun k => (w.memo.getD (root g.parent k) none).getD 0 := by
    rw [List.map_map]
    refine List.map_congr_left fun k hk => ?_
    have hne : root g.parent k ≠ root g.parent top := fun heq => by
      have hsome := hkids k hk
      rw [heq, Option.isSome_iff_ne_none] at hsome
      exact hsome (Option.isNone_iff_eq_none.mp hmemo)
    have hset := congrFun (getD_set w.memo htop (some w.out.count)) (root g.parent k)
    dsimp only [Function.comp] at hset ⊢
    rw [hset, Function.update_of_ne hne]
  obtain ⟨ts, hspells, hrepresents, htotal⟩ := exists_terms hg hw n.kids hkids
  have hless : ∀ k ∈ n.kids.map (fun k => (w.memo.getD (root g.parent k) none).getD 0), k < w.out.count := by
    intro idx hidx
    obtain ⟨k, hk, rfl⟩ := List.mem_map.mp hidx
    obtain ⟨idx, hsome⟩ := Option.isSome_iff_exists.mp (hkids k hk)
    rw [hsome]
    exact (hw.written _ idx hsome).1
  have hfresh : i ∉ chosen := fun hmem => by
    obtain ⟨-, c, hsome, hc⟩ := hw.best i hmem
    obtain ⟨r, hr, rfl, -⟩ := hC.exact c i hc
    rw [hn.rule] at hr
    obtain rfl := Option.some.inj hr
    rw [hn.cls, Option.isSome_iff_ne_none] at hsome
    exact hsome (Option.isNone_iff_eq_none.mp hmemo)
  refine ⟨{ graph := (findAll (pendingKids w.memo (egFind w.graph top).2 n.kids).2 n.kids).2
            memo := w.memo.set (root g.parent top) (some w.out.count)
            stack := below
            out := w.out.push n (n.kids.map fun k => (w.memo.getD (root g.parent k) none).getD 0) },
    .of_turn ?_, ?_, rfl, rfl⟩
  · unfold walkTurn EgExtractResult.push
    rw [hstack]
    dsimp only
    rw [egFind_fst, hw.same.halved.root, if_neg (by simpa using hmemo), hbest]
    dsimp only
    rw [hnil, if_neg (by simp), hroots, hindex]
  · refine hw.push hg.grove hn hfresh htop hspells hrepresents ?_ hless ?_ (hw.same.trans (hfind.trans (hs.trans hs'))) below
    · rw [List.length_map]
    · rw [← hn.total]
      exact htotal _

end Turns

/-! ## The whole walk -/

section Visits

variable (hg : Stored g) (hC : Solved (ruleOf g cost excl) plan.costs)

/-- What a visit of class `c` comes to, whatever is below it on the stack. -/
def Visits (g : EGraph) (cost : EgCostFn) (excl : Int × Int) (plan : EgExtractPlan) (c : Nat) : Prop :=
  ∀ (chosen : List Nat) (w : Walk) (top : Nat) (below : List Nat), Walked g cost excl plan chosen w →
    w.stack = top :: below → root g.parent top = c → ∃ chosen' w', Reaches plan w w' ∧
      Walked g cost excl plan chosen' w' ∧ w'.stack = below ∧ (w'.memo.getD c none).isSome ∧ Extends w w'

/-- Visits of the classes on top, one after the other. -/
theorem visits_all {cs : List Nat} (hcs : ∀ c ∈ cs, Visits g cost excl plan c)
    (hroots : ∀ c ∈ cs, root g.parent c = c) {chosen : List Nat} {w : Walk} {below : List Nat}
    (hw : Walked g cost excl plan chosen w) (hstack : w.stack = cs ++ below) : ∃ chosen' w', Reaches plan w w' ∧
      Walked g cost excl plan chosen' w' ∧ w'.stack = below ∧ (∀ c ∈ cs, (w'.memo.getD c none).isSome) ∧
        Extends w w' := by
  induction cs generalizing chosen w with
  | nil => exact ⟨chosen, w, .refl w, hw, hstack, fun c hc => (by cases hc), fun c hc => hc⟩
  | cons c cs ih =>
    obtain ⟨chosen₁, w₁, hreach₁, hw₁, hstack₁, hc₁, hext₁⟩ := hcs c List.mem_cons_self chosen w c (cs ++ below) hw hstack
      (hroots c List.mem_cons_self)
    obtain ⟨chosen₂, w₂, hreach₂, hw₂, hstack₂, hcs₂, hext₂⟩ := ih (fun c' hc' => hcs c' (List.mem_cons_of_mem c hc'))
      (fun c' hc' => hroots c' (List.mem_cons_of_mem c hc')) hw₁ hstack₁
    refine ⟨chosen₂, w₂, hreach₁.trans hreach₂, hw₂, hstack₂, fun c' hc' => ?_, fun c' hc' => hext₂ c' (hext₁ c' hc')⟩
    rcases List.mem_cons.mp hc' with rfl | hc'
    · exact hext₂ _ hc₁
    · exact hcs₂ c' hc'

theorem extends_set {w w' : Walk} {c idx : Nat} (hc : c < w.memo.length) (h : w'.memo = w.memo.set c (some idx)) :
    (w'.memo.getD c none).isSome ∧ Extends w w' := by
  have hset := congrFun (getD_set w.memo hc (some idx))
  rw [h]
  refine ⟨?_, fun c' hc' => ?_⟩
  · rw [hset, Function.update_self]
    rfl
  · rw [h, hset]
    by_cases hc'' : c' = c
    · rw [hc'', Function.update_self]
      rfl
    · rw [Function.update_of_ne hc'']
      exact hc'

include hg hC

/-- **Every class that has a cost can be visited.** -/
theorem visit (c : Nat) (hc : plan.costs.cost c ≠ none) : Visits g cost excl plan c := by
  induction c using hC.grounded.induction with
  | _ c ih =>
    intro chosen w top below hw hstack htop
    subst htop
    obtain ⟨i, n, hn⟩ := exists_chosen hC hc
    have htoplt : root g.parent top < g.parent.length := by
      rw [← hn.cls]
      exact hg.grove.root_lt (hg.cls i n hn.node).1
    cases hmemo : w.memo.getD (root g.parent top) none with
    | some idx =>
      obtain ⟨w', hreach, hw', hstack', hmemo'⟩ := walkTurn_pop hw hstack (by rw [hmemo]; rfl)
      refine ⟨chosen, w', hreach, hw', hstack', ?_, fun c hc => ?_⟩
      · rw [hmemo', hmemo]
        rfl
      · rw [hmemo']
        exact hc
    | none =>
      have hsources : ∀ k ∈ n.kids.map (root g.parent), Visits g cost excl plan k := by
        intro k hk
        refine ih k ⟨i, _, hn.best, hn.rule, hk⟩ ?_
        have htotal := hn.total
        obtain ⟨v, hv⟩ := Option.ne_none_iff_exists'.mp hc
        rw [hv] at htotal
        obtain ⟨v', hv', -⟩ := cost_of_mem htotal hk
        rw [hv']
        simp
      -- first the children, whether there are any to be visited or not
      have hkids : ∃ chosen₁ w₁, Reaches plan w w₁ ∧ Walked g cost excl plan chosen₁ w₁ ∧ w₁.stack = top :: below ∧
          (∀ k ∈ n.kids, (w₁.memo.getD (root g.parent k) none).isSome) ∧ Extends w w₁ := by
        by_cases hpending : (n.kids.map (root g.parent)).filter (fun c => (w.memo.getD c none).isNone) = []
        · refine ⟨chosen, w, .refl w, hw, hstack, fun k hk => ?_, fun c hc => hc⟩
          have hnot := List.filter_eq_nil_iff.mp hpending _ (List.mem_map_of_mem hk)
          rw [Option.isNone_iff_eq_none] at hnot
          exact Option.isSome_iff_ne_none.mpr hnot
        · obtain ⟨w₁, hreach₁, hw₁, hstack₁, hmemo₁⟩ := walkTurn_push hw hstack hn (by rw [hmemo]; rfl) rfl hpending
          obtain ⟨chosen₂, w₂, hreach₂, hw₂, hstack₂, hcs₂, hext₂⟩ := visits_all
            (fun c hc => hsources c (List.mem_of_mem_filter (List.mem_reverse.mp hc)))
            (fun c hc => by
              obtain ⟨k, -, rfl⟩ := List.mem_map.mp (List.mem_of_mem_filter (List.mem_reverse.mp hc))
              exact hg.grove.root_root k) hw₁ hstack₁
          refine ⟨chosen₂, w₂, hreach₁.trans hreach₂, hw₂, hstack₂, fun k hk => ?_, fun c hc => hext₂ c (by rwa [hmemo₁])⟩
          cases hk' : w.memo.getD (root g.parent k) none with
          | some idx => exact hext₂ _ (by rw [hmemo₁, hk']; rfl)
          | none =>
            refine hcs₂ _ (List.mem_reverse.mpr (List.mem_filter.mpr ⟨List.mem_map_of_mem hk, ?_⟩))
            rw [hk']
            rfl
      obtain ⟨chosen₁, w₁, hreach₁, hw₁, hstack₁, hkids, hext₁⟩ := hkids
      cases hmemo₁ : w₁.memo.getD (root g.parent top) none with
      | some idx =>
        obtain ⟨w', hreach, hw', hstack', hmemo'⟩ := walkTurn_pop hw₁ hstack₁ (by rw [hmemo₁]; rfl)
        refine ⟨chosen₁, w', hreach₁.trans hreach, hw', hstack', ?_, fun c hc => ?_⟩
        · rw [hmemo', hmemo₁]
          rfl
        · rw [hmemo']
          exact hext₁ c hc
      | none =>
        obtain ⟨w', hreach, hw', hstack', hmemo'⟩ := walkTurn_emit hg hC hw₁ hstack₁ hn (by rw [hmemo₁]; rfl) hkids
        obtain ⟨hdone, hext⟩ := extends_set (hw₁.memo ▸ htoplt) hmemo'
        exact ⟨_, w', hreach₁.trans hreach, hw', hstack', hdone, fun c hc => hext c (hext₁ c hc)⟩

end Visits

/-- Where the walk begins. -/
theorem walked_nil (hs : Same g g') (hlen : plan.cost.length = g.parent.length) (stack : List Nat) :
    Walked g cost excl plan []
      { graph := g', memo := List.replicate plan.cost.length none, stack, out := noResult } where
  same := hs
  memo := by rw [List.length_replicate, hlen]
  inOrder := ⟨rfl, rfl, rfl, rfl, fun i off n h => (by cases h), fun i op data h => (by cases h)⟩
  nodup := List.nodup_nil
  best := fun i hi => (by cases hi)
  count := rfl
  total := rfl
  written := fun c idx h => by
    rw [List.getD_eq_getElem?_getD, List.getElem?_replicate] at h
    split at h
    · cases h
    · cases h

end Bbq.Egraph
