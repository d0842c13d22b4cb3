import Mathlib.Data.Finset.Card
import Mathlib.Data.Finset.Range
import Bbq.Egraph.Meaning

/-!
# Repair

One round of `eg_rebuild` makes the children of all live nodes canonical (`recanonicalised`), and then puts
the live nodes into an empty map one by one; a node whose key is there already is merged with its twin and
retired. A merge makes keys stale again, and there is another round.

* `Repaired g m`: the invariant of the second loop, with the first `m` nodes done.
* `rebuild_settles`: the rounds end, as each one that merges leaves fewer roots, and then the worklist is
  empty and the children are canonical.
-/

namespace Bbq.Egraph

open Bbq.Lib

variable {g g' : EGraph} {ts : List EgTerm} {E : List (EgTerm × EgTerm)}

/-- The children of live nodes are roots. -/
def Canonical (g : EGraph) : Prop :=
  ∀ (i : Nat) (n : EgNode), g.nodes[i]? = some n → n.live = true → n.kids.map (root g.parent) = n.kids

/-! ## The first loop -/

/-- What the first loop makes of a node. -/
def canonicalNode (parent : List Nat) (n : EgNode) : EgNode :=
  if n.live then { n with kids := n.kids.map (root parent), next_hash := none } else n

/-- The first `m` nodes are canonical. -/
structure Recanonicalised (g g' : EGraph) (m : Nat) : Prop where
  halved : Halved g.parent g'.parent
  nodes : ∀ i : Nat, g'.nodes[i]? = (g.nodes[i]?).map fun n => if i < m then canonicalNode g.parent n else n
  classes : g'.classes = g.classes
  hashcons : g'.hashcons = g.hashcons
  worklist : g'.worklist = g.worklist
  count : g'.nodes.length = g.nodes.length

theorem recanonicalise_spec (hg : Stored g) {m : Nat} (h : Recanonicalised g g' m) :
    Recanonicalised g (recanonicalise g' m) (m + 1) := by
  unfold recanonicalise
  cases hn' : g'.nodes[m]? with
  | none =>
    refine ⟨h.halved, fun i => ?_, h.classes, h.hashcons, h.worklist, h.count⟩
    rw [h.nodes]
    rcases eq_or_ne i m with rfl | hne
    · rw [h.nodes] at hn'
      rw [Option.map_eq_none_iff] at hn'
      rw [hn']
      rfl
    · have hiff : i < m + 1 ↔ i < m := by omega
      simp only [hiff]
  | some n' =>
    have hn := h.nodes m
    rw [hn', eq_comm, Option.map_eq_some_iff] at hn
    obtain ⟨n, hn, hsame⟩ := hn
    rw [if_neg (lt_irrefl m)] at hsame
    subst hsame
    dsimp only
    by_cases hlive : n.live = true
    · rw [if_pos hlive]
      obtain ⟨hroots, hs⟩ := findAll_spec h.halved.grove n.kids
      generalize findAll g' n.kids = r at hroots hs
      obtain ⟨ks, g₁⟩ := r
      dsimp only at hroots hs ⊢
      have hs' := egFind_same hs.halved.grove n.cls
      have hcls : (egFind g₁ n.cls).1 = n.cls := by
        rw [egFind_fst, hs.halved.root, h.halved.root]
        exact hg.root_cls hn
      have hks : ks = n.kids.map (root g.parent) := by
        rw [hroots]
        exact List.map_congr_left fun x _ => h.halved.root x
      have hall := hs.trans hs'
      generalize egFind g₁ n.cls = r' at hcls hs' hall
      obtain ⟨c, g₂⟩ := r'
      dsimp only at hcls hs' hall ⊢
      refine ⟨h.halved.trans hall.halved, fun i => ?_, hall.classes.trans h.classes, hall.hashcons.trans h.hashcons,
        hall.worklist.trans h.worklist, ?_⟩
      · change (g₂.nodes.modify m _)[i]? = _
        rw [List.getElem?_modify, hall.nodes, h.nodes]
        rcases eq_or_ne i m with rfl | hne
        · rw [hn]
          simp only [lt_irrefl, if_false, Option.map_some, if_true, Nat.lt_succ_self, canonicalNode, hlive]
          subst hks hcls
          simp only [Option.map_eq_map, Option.map_some, hlive]
        · have hiff : i < m + 1 ↔ i < m := by omega
          simp only [hiff, Ne.symm hne, if_false]
          exact id_map _
      · change (g₂.nodes.modify m _).length = _
        rw [List.length_modify, hall.nodes, h.count]
    · rw [if_neg hlive]
      refine ⟨h.halved, fun i => ?_, h.classes, h.hashcons, h.worklist, h.count⟩
      rw [h.nodes]
      rcases eq_or_ne i m with rfl | hne
      · rw [hn]
        simp only [lt_irrefl, if_false, Option.map_some, Nat.lt_succ_self, if_true, canonicalNode, hlive]
        rfl
      · have hiff : i < m + 1 ↔ i < m := by omega
        simp only [hiff]

theorem recanonicalised (hg : Stored g) (m : Nat) :
    Recanonicalised g ((List.range m).foldl recanonicalise g) m := by
  induction m with
  | zero =>
    refine ⟨.refl hg.grove, fun i => ?_, rfl, rfl, rfl, rfl⟩
    simp only [Nat.not_lt_zero, if_false, Option.map_id']
    rfl
  | succ m ih =>
    rw [List.range_succ, List.foldl_append, List.foldl_cons, List.foldl_nil]
    exact recanonicalise_spec hg ih

section Recanonicalised

variable {m : Nat} (h : Recanonicalised g g' m)

include h

theorem Recanonicalised.node {i : Nat} {n : EgNode} (hn : g'.nodes[i]? = some n) :
    ∃ n', g.nodes[i]? = some n' ∧ n = if i < m then canonicalNode g.parent n' else n' := by
  rw [h.nodes, Option.map_eq_some_iff] at hn
  obtain ⟨n', hn', rfl⟩ := hn
  exact ⟨n', hn', rfl⟩

theorem Recanonicalised.stored (hg : Stored g) : Stored g' := by
  have hcanon : ∀ n : EgNode, (canonicalNode g.parent n).cls = n.cls := by
    intro n
    unfold canonicalNode
    split
    · rfl
    · rfl
  have hidx : ∀ c, nodeIdx g' c = nodeIdx g c := fun c => by
    unfold nodeIdx
    rw [h.classes]
  refine ⟨h.halved.grove, ?_, ?_, fun i n hn => ?_, fun i n hn => ?_, fun i c => ?_, fun c => ?_, fun i n j hn hj => ?_⟩
  · rw [h.classes, h.halved.length, hg.classes]
  · rw [h.count, h.halved.length, hg.nodes]
  · obtain ⟨n', hn', rfl⟩ := h.node hn
    rw [h.halved.length]
    have hkids := hg.kids i n' hn'
    have hroots : ∀ k ∈ (canonicalNode g.parent n').kids, k < g.parent.length := by
      unfold canonicalNode
      split
      · intro k hk
        obtain ⟨x, hx, rfl⟩ := List.mem_map.mp hk
        exact hg.grove.root_lt (hkids x hx)
      · exact hkids
    split
    · exact hroots
    · exact hkids
  · obtain ⟨n', hn', rfl⟩ := h.node hn
    rw [h.halved.length, h.halved.up_iff hg.grove]
    have hcls := hg.cls i n' hn'
    split
    · rw [hcanon]
      exact hcls
    · exact hcls
  · rw [hidx, hg.listed, h.nodes]
    constructor
    · rintro ⟨n, hn, rfl⟩
      refine ⟨_, Option.map_eq_some_iff.mpr ⟨n, hn, rfl⟩, ?_⟩
      split
      · exact hcanon n
      · rfl
    · rintro ⟨n, hn, rfl⟩
      obtain ⟨n', hn', rfl⟩ := Option.map_eq_some_iff.mp hn
      refine ⟨n', hn', ?_⟩
      split
      · exact (hcanon n').symm
      · rfl
  · rw [hidx]
    exact hg.once c
  · obtain ⟨n', hn', rfl⟩ := h.node hn
    refine hg.chain i n' j hn' ?_
    unfold canonicalNode at hj
    split at hj
    · split at hj
      · cases hj
      · exact hj
    · exact hj

theorem Recanonicalised.meant (hg : Stored g) (hm : Meant g ts E) : Meant g' ts E := by
  have hkeeps : ∀ (i : Nat) (n : EgNode), g.nodes[i]? = some n →
      (canonicalNode g.parent n).op = n.op ∧ (canonicalNode g.parent n).data = n.data ∧
        (canonicalNode g.parent n).cls = n.cls ∧ (canonicalNode g.parent n).live = n.live ∧
        (canonicalNode g.parent n).kids.map (root g.parent) = n.kids.map (root g.parent) ∧
        Cong E (.mk (n.op, n.data) (n.kids.map (termAt ts)))
          (.mk (n.op, n.data) ((canonicalNode g.parent n).kids.map (termAt ts))) := by
    intro i n hn
    unfold canonicalNode
    split
    · refine ⟨rfl, rfl, rfl, rfl, ?_, .app _ ?_⟩
      · rw [List.map_map]
        exact List.map_congr_left fun x _ => hg.grove.root_root x
      · rw [List.map_map, List.forall₂_map_left_iff, List.forall₂_map_right_iff, List.forall₂_same]
        intro x hx
        have hlt := hg.kids i n hn x hx
        exact hm.classes_sound x hlt _ (hg.grove.root_lt hlt) (hg.grove.root_root x).symm
    · exact ⟨rfl, rfl, rfl, rfl, rfl, .refl _⟩
  refine hm.of_nodes h.halved.length h.halved.root (fun i n => if i < m then canonicalNode g.parent n else n) h.nodes
    (fun i n hn => ?_) fun i n hn hlive => ⟨i, n, hn, ?_⟩
  · obtain ⟨hop, hdata, hcls, -, -, hcong⟩ := hkeeps i n hn
    have hsound := hm.nodes_sound i n hn
    split
    · rw [hop, hdata, hcls]
      exact hsound.trans hcong
    · exact hsound
  · obtain ⟨hop, hdata, hcls, hlive', hroots, -⟩ := hkeeps i n hn
    split
    · exact ⟨hlive'.trans hlive, hop, hdata, hroots, hcls⟩
    · exact ⟨hlive, rfl, rfl, rfl, rfl⟩

theorem Recanonicalised.canonical (hg : Stored g) (hm : m = g.nodes.length) : Canonical g' := by
  intro i n hn hlive
  have hi : i < m := by
    rw [hm, ← h.count]
    exact (List.getElem?_eq_some_iff.mp hn).1
  obtain ⟨n', hn', rfl⟩ := h.node hn
  rw [if_pos hi] at hlive ⊢
  unfold canonicalNode at hlive ⊢
  split
  · rw [List.map_map]
    refine List.map_congr_left fun x _ => ?_
    rw [Function.comp_apply, h.halved.root, hg.grove.root_root]
  · next hdead =>
    rw [if_neg hdead] at hlive
    exact absurd hlive hdead

end Recanonicalised

/-! ## The second loop -/

/-- The number of classes. -/
def rootCount (g : EGraph) : Nat :=
  ((Finset.range g.parent.length).filter fun x => root g.parent x = x).card

theorem rootCount_same (hs : Same g g') : rootCount g' = rootCount g := by
  unfold rootCount
  rw [hs.halved.length]
  congr 1
  exact Finset.filter_congr fun x _ => by rw [hs.halved.root]

theorem rootCount_merged {p q : Nat} (hq : q < g.parent.length) (hroot : root g.parent q = q)
    (hp : root g.parent p = p) (hne : p ≠ q) (hm : Merged g g' p q) : rootCount g' < rootCount g := by
  unfold rootCount
  rw [hm.length]
  refine Finset.card_lt_card ⟨fun x hx => ?_, fun hsub => ?_⟩
  · rw [Finset.mem_filter] at hx ⊢
    refine ⟨hx.1, ?_⟩
    have hx' := hx.2
    rw [hm.root] at hx'
    split at hx'
    · rw [← hx']
      exact hp
    · exact hx'
  · have hmem := hsub (Finset.mem_filter.mpr ⟨Finset.mem_range.mpr hq, hroot⟩)
    rw [Finset.mem_filter, hm.root, hroot, if_pos rfl] at hmem
    exact hne hmem.2

/-- The invariant of the second loop, entered at `g₀`, with the first `m` nodes done. -/
structure Repaired (g₀ g : EGraph) (m : Nat) (ts : List EgTerm) (E : List (EgTerm × EgTerm)) : Prop where
  stored : Stored g
  meant : Meant g ts E
  keyed : Keyed g m
  count : g.parent.length = g₀.parent.length
  canonical : g.worklist = [] → Canonical g
  roots : rootCount g ≤ rootCount g₀
  fewer : g.worklist ≠ [] → rootCount g < rootCount g₀

theorem Canonical.same (hs : Same g g') (h : Canonical g) : Canonical g' := by
  intro i n hn hlive
  rw [hs.nodes] at hn
  rw [show root g'.parent = root g.parent from funext hs.halved.root]
  exact h i n hn hlive

theorem Repaired.same {g₀ : EGraph} {m : Nat} (h : Repaired g₀ g m ts E) (hs : Same g g') :
    Repaired g₀ g' m ts E where
  stored := hs.stored h.stored
  meant := h.meant.same hs
  keyed := h.keyed.same hs
  count := hs.halved.length.trans h.count
  canonical := fun hw => by
    rw [hs.worklist] at hw
    exact (h.canonical hw).same hs
  roots := by
    rw [rootCount_same hs]
    exact h.roots
  fewer := by
    rw [rootCount_same hs, hs.worklist]
    exact h.fewer

/-- A retired node needs no key. -/
theorem Keyed.skip {m : Nat} (h : Keyed g m) (hdead : ∀ n : EgNode, g.nodes[m]? = some n → n.live = false) :
    Keyed g (m + 1) := by
  have hlt : ∀ (i : Nat) (n : EgNode), i < m + 1 → g.nodes[i]? = some n → n.live = true → i < m := by
    intro i n hi hn hlive
    rcases Nat.lt_succ_iff_lt_or_eq.mp hi with hi | rfl
    · exact hi
    · rw [hdead n hn] at hlive
      cases hlive
  refine ⟨fun key j hj => Nat.lt_succ_of_lt (h.heads key j hj), fun i hi n hn hlive => ?_, ?_⟩
  · exact h.chained i (hlt i n hi hn hlive) n hn hlive
  · intro i hi j hj n n' hn hn' hlive hlive'
    exact h.apart i (hlt i n hi hn hlive) j (hlt j n' hj hn' hlive') n n' hn hn' hlive hlive'

/-- The map does not look at classes. -/
theorem Keyed.merged {m p q : Nat} (h : Keyed g m) (hg : Stored g) (hm : Merged g g' p q) : Keyed g' m := by
  have hback : ∀ (i : Nat) (n : EgNode), g'.nodes[i]? = some n → ∃ n', g.nodes[i]? = some n' ∧ n'.op = n.op ∧
      n'.data = n.data ∧ n'.kids = n.kids ∧ n'.live = n.live := by
    intro i n hn
    rw [hm.nodes, Option.map_eq_some_iff] at hn
    obtain ⟨n', hn', rfl⟩ := hn
    refine ⟨n', hn', ?_⟩
    split
    · exact ⟨rfl, rfl, rfl, rfl⟩
    · exact ⟨rfl, rfl, rfl, rfl⟩
  refine ⟨?_, fun i hi n hn hlive => ?_, fun i hi j hj n₁ n₂ hn₁ hn₂ hlive₁ hlive₂ hop hdata hkids => ?_⟩
  · rw [hm.hashcons]
    exact h.heads
  · obtain ⟨n', hn', hop, hdata, hkids, hlive'⟩ := hback i n hn
    rw [hm.hashcons, ← hop, ← hdata, ← hkids]
    refine (h.chained i hi n' hn' (hlive'.trans hlive)).mono hg.chain (fun j _ n'' hn'' => ?_) (h.heads _)
    have hnode := hm.nodes j
    rw [hn'', Option.map_some] at hnode
    refine ⟨_, hnode, ?_⟩
    split
    · rfl
    · rfl
  · obtain ⟨n₁', hn₁', hop₁, hdata₁, hkids₁, hlive₁'⟩ := hback i n₁ hn₁
    obtain ⟨n₂', hn₂', hop₂, hdata₂, hkids₂, hlive₂'⟩ := hback j n₂ hn₂
    exact h.apart i hi j hj n₁' n₂' hn₁' hn₂' (hlive₁'.trans hlive₁) (hlive₂'.trans hlive₂)
      (hop₁.trans (hop.trans hop₂.symm)) (hdata₁.trans (hdata.trans hdata₂.symm))
      (hkids₁.trans (hkids.trans hkids₂.symm))

/-! ### Retiring a node -/

/-- The node `m` is no longer live. -/
def retire (g : EGraph) (m : Nat) : EGraph := modifyNode g m fun n => { n with live := false }

theorem retire_getElem? (g : EGraph) (m i : Nat) : (retire g m).nodes[i]? =
    (g.nodes[i]?).map fun n => if i = m then { n with live := false } else n := by
  change (g.nodes.modify m _)[i]? = _
  rw [List.getElem?_modify]
  by_cases hi : m = i
  · subst hi
    simp only [if_true]
    rfl
  · simp only [hi, Ne.symm hi, if_false]
    rfl

theorem retire_node {m i : Nat} {n : EgNode} (hn : (retire g m).nodes[i]? = some n) : ∃ n', g.nodes[i]? = some n' ∧
    n'.op = n.op ∧ n'.data = n.data ∧ n'.kids = n.kids ∧ n'.cls = n.cls ∧ n'.next_hash = n.next_hash ∧
      (n.live = true → n'.live = true) := by
  rw [retire_getElem?, Option.map_eq_some_iff] at hn
  obtain ⟨n', hn', rfl⟩ := hn
  refine ⟨n', hn', ?_⟩
  split
  · refine ⟨rfl, rfl, rfl, rfl, rfl, fun h => ?_⟩
    cases h
  · exact ⟨rfl, rfl, rfl, rfl, rfl, id⟩

theorem retire_keeps {m i : Nat} {n : EgNode} (hn : g.nodes[i]? = some n) : ∃ n', (retire g m).nodes[i]? = some n' ∧
    n'.next_hash = n.next_hash ∧ n'.cls = n.cls := by
  refine ⟨if i = m then { n with live := false } else n, by rw [retire_getElem?, hn, Option.map_some], ?_⟩
  split
  · exact ⟨rfl, rfl⟩
  · exact ⟨rfl, rfl⟩

theorem Stored.retire (hg : Stored g) (m : Nat) : Stored (retire g m) := by
  refine ⟨hg.grove, hg.classes, ?_, fun i n hn => ?_, fun i n hn => ?_, fun i c => ?_, hg.once, fun i n j hn hj => ?_⟩
  · change (g.nodes.modify m _).length = _
    rw [List.length_modify]
    exact hg.nodes
  · obtain ⟨n', hn', -, -, hkids, -⟩ := retire_node hn
    rw [← hkids]
    exact hg.kids i n' hn'
  · obtain ⟨n', hn', -, -, -, hcls, -⟩ := retire_node hn
    rw [← hcls]
    exact hg.cls i n' hn'
  · refine (hg.listed i c).trans ?_
    constructor
    · rintro ⟨n, hn, rfl⟩
      obtain ⟨n', hn', -, hcls⟩ := retire_keeps hn
      exact ⟨n', hn', hcls⟩
    · rintro ⟨n, hn, rfl⟩
      obtain ⟨n', hn', -, -, -, hcls, -⟩ := retire_node hn
      exact ⟨n', hn', hcls⟩
  · obtain ⟨n', hn', -, -, -, -, hnext, -⟩ := retire_node hn
    exact hg.chain i n' j hn' (hnext.trans hj)

theorem Keyed.retire {m : Nat} (h : Keyed g m) (hg : Stored g) : Keyed (retire g m) (m + 1) := by
  have hkeyed : Keyed (Egraph.retire g m) m := by
    refine ⟨h.heads, fun i hi n hn hlive => ?_, fun i hi j hj n₁ n₂ hn₁ hn₂ hlive₁ hlive₂ hop hdata hkids => ?_⟩
    · obtain ⟨n', hn', hop, hdata, hkids, -, -, hlive'⟩ := retire_node hn
      rw [← hop, ← hdata, ← hkids]
      refine (h.chained i hi n' hn' (hlive' hlive)).mono hg.chain (fun j _ n'' hn'' => ?_) (h.heads _)
      obtain ⟨n₂, hn₂, hnext, -⟩ := retire_keeps hn''
      exact ⟨n₂, hn₂, hnext⟩
    · obtain ⟨n₁', hn₁', hop₁, hdata₁, hkids₁, -, -, hlive₁'⟩ := retire_node hn₁
      obtain ⟨n₂', hn₂', hop₂, hdata₂, hkids₂, -, -, hlive₂'⟩ := retire_node hn₂
      exact h.apart i hi j hj n₁' n₂' hn₁' hn₂' (hlive₁' hlive₁) (hlive₂' hlive₂)
        (hop₁.trans (hop.trans hop₂.symm)) (hdata₁.trans (hdata.trans hdata₂.symm))
        (hkids₁.trans (hkids.trans hkids₂.symm))
  refine hkeyed.skip fun n hn => ?_
  rw [retire_getElem?, Option.map_eq_some_iff] at hn
  obtain ⟨n', -, rfl⟩ := hn
  rw [if_pos rfl]

/-- A node with a live twin in its class can be spared. -/
theorem Meant.retire (h : Meant g ts E) {m j : Nat} {n n' : EgNode} (hj : j ≠ m) (hn : g.nodes[m]? = some n)
    (hn' : g.nodes[j]? = some n') (hlive : n'.live = true) (hop : n'.op = n.op) (hdata : n'.data = n.data)
    (hkids : n'.kids = n.kids) (hcls : n'.cls = n.cls) : Meant (retire g m) ts E := by
  refine h.of_nodes rfl (fun _ => rfl) _ (retire_getElem? g m) (fun i n₁ hn₁ => ?_) fun i n₁ hn₁ hlive₁ => ?_
  · have hsound := h.nodes_sound i n₁ hn₁
    split
    · exact hsound
    · exact hsound
  · by_cases hi : i = m
    · subst hi
      rw [hn] at hn₁
      obtain rfl := Option.some.inj hn₁
      refine ⟨j, n', hn', ?_⟩
      rw [if_neg hj]
      exact ⟨hlive, hop, hdata, by rw [hkids], hcls⟩
    · refine ⟨i, n₁, hn₁, ?_⟩
      rw [if_neg hi]
      exact ⟨hlive₁, rfl, rfl, rfl, rfl⟩

theorem Repaired.retire {g₀ : EGraph} {m j : Nat} (h : Repaired g₀ g m ts E) {n n' : EgNode} (hj : j ≠ m)
    (hn : g.nodes[m]? = some n) (hn' : g.nodes[j]? = some n') (hlive : n'.live = true) (hop : n'.op = n.op)
    (hdata : n'.data = n.data) (hkids : n'.kids = n.kids) (hcls : n'.cls = n.cls) :
    Repaired g₀ (retire g m) (m + 1) ts E where
  stored := h.stored.retire m
  meant := h.meant.retire hj hn hn' hlive hop hdata hkids hcls
  keyed := h.keyed.retire h.stored
  count := h.count
  canonical := fun hw i n₁ hn₁ hlive₁ => by
    obtain ⟨n₂, hn₂, -, -, hkids₂, -, -, hlive₂⟩ := retire_node hn₁
    rw [← hkids₂]
    exact h.canonical hw i n₂ hn₂ (hlive₂ hlive₁)
  roots := h.roots
  fewer := h.fewer

/-- Two classes that hold nodes with one key become one. -/
theorem Repaired.merge {g₀ : EGraph} {m i j : Nat} (h : Repaired g₀ g m ts E) {n n' : EgNode}
    (hn : g.nodes[i]? = some n) (hn' : g.nodes[j]? = some n') (hop : n'.op = n.op) (hdata : n'.data = n.data)
    (hkids : n'.kids = n.kids) (hne : n'.cls ≠ n.cls) :
    Repaired g₀ (egMerge g n'.cls n.cls).2 m ts E ∧ ∃ c, (egMerge g n'.cls n.cls).2.nodes[i]? = some { n with cls := c } ∧
      (egMerge g n'.cls n.cls).2.nodes[j]? = some { n' with cls := c } := by
  have hcls := h.stored.cls i n hn
  have hcls' := h.stored.cls j n' hn'
  have hroot := h.stored.root_cls hn
  have hroot' := h.stored.root_cls hn'
  rcases egMerge_spec h.stored hcls'.1 hcls.1 with ⟨hroots, -⟩ | ⟨-, -, p, q, hchoice, hm⟩
  · rw [hroot, hroot'] at hroots
    exact absurd hroots hne
  · rw [hroot, hroot'] at hchoice
    have hsound := h.meant.nodes_sound i n hn
    have hsound' := h.meant.nodes_sound j n' hn'
    rw [hop, hdata, hkids] at hsound'
    have hcong : Cong E (termAt ts n'.cls) (termAt ts n.cls) := hsound'.trans hsound.symm
    have hpq : Cong E (termAt ts p) (termAt ts q) ∧ p ≠ q ∧ q < g.parent.length ∧ root g.parent q = q ∧
        root g.parent p = p := by
      rcases hchoice with ⟨rfl, rfl⟩ | ⟨rfl, rfl⟩
      · exact ⟨hcong, hne, hcls.1, hroot, hroot'⟩
      · exact ⟨hcong.symm, Ne.symm hne, hcls'.1, hroot', hroot⟩
    obtain ⟨hcong, hdiff, hq, hqroot, hproot⟩ := hpq
    have hfewer := lt_of_lt_of_le (rootCount_merged hq hqroot hproot hdiff hm) h.roots
    have hworklist : (egMerge g n'.cls n.cls).2.worklist ≠ [] := by
      rw [hm.worklist]
      exact List.append_ne_nil_of_right_ne_nil _ (List.cons_ne_nil _ _)
    refine ⟨⟨hm.stored, ?_, h.keyed.merged h.stored hm, hm.length.trans h.count, fun hw => absurd hw hworklist,
      le_of_lt hfewer, fun _ => hfewer⟩, p, ?_, ?_⟩
    · exact h.meant.absorb h.stored hm (List.Subset.refl _) hcong fun pair hpair => .inl hpair
    · rw [hm.nodes, hn, Option.map_some]
      rcases hchoice with ⟨rfl, rfl⟩ | ⟨rfl, rfl⟩
      · rw [if_pos rfl]
      · rw [if_neg (Ne.symm hne)]
    · rw [hm.nodes, hn', Option.map_some]
      rcases hchoice with ⟨rfl, rfl⟩ | ⟨rfl, rfl⟩
      · rw [if_neg hne]
      · rw [if_pos rfl]

/-- The children and the classes stay, and only a link changes. -/
theorem Repaired.insert {g₀ : EGraph} {m : Nat} (h : Repaired g₀ g m ts E) {n : EgNode} (hn : g.nodes[m]? = some n)
    (hnone : ∀ i < m, ∀ n' : EgNode, g.nodes[i]? = some n' → n'.live = true → n'.op = n.op → n'.data = n.data →
      n'.kids ≠ n.kids) :
    Repaired g₀ (hashconsInsert g m (nodeHash n.op n.data n.kids)) (m + 1) ts E where
  stored := h.stored.insert _ (h.keyed.heads _)
  meant := by
    refine h.meant.of_nodes rfl (fun _ => rfl) (fun i n => if m = i then { n with next_hash := _ } else n)
      (hashconsInsert_getElem? g m _) (fun i n₁ hn₁ => ?_) fun i n₁ hn₁ hlive₁ => ⟨i, n₁, hn₁, ?_⟩
    · have hsound := h.meant.nodes_sound i n₁ hn₁
      split
      · exact hsound
      · exact hsound
    · split
      · exact ⟨hlive₁, rfl, rfl, rfl, rfl⟩
      · exact ⟨hlive₁, rfl, rfl, rfl, rfl⟩
  keyed := h.keyed.insert h.stored hn hnone
  count := h.count
  canonical := fun hw i n₁ hn₁ hlive₁ => by
    rw [hashconsInsert_getElem?, Option.map_eq_some_iff] at hn₁
    obtain ⟨n₂, hn₂, rfl⟩ := hn₁
    have hcanonical := h.canonical hw i n₂ hn₂
    by_cases hi : m = i
    · rw [if_pos hi] at hlive₁ ⊢
      exact hcanonical hlive₁
    · rw [if_neg hi] at hlive₁ ⊢
      exact hcanonical hlive₁
  roots := h.roots
  fewer := h.fewer

/-- **One node of the second loop.** -/
theorem rekey_spec {g₀ : EGraph} {m : Nat} (h : Repaired g₀ g m ts E) : Repaired g₀ (rekey g m) (m + 1) ts E := by
  unfold rekey
  cases hn : g.nodes[m]? with
  | none => exact { h with keyed := h.keyed.skip fun n hn' => by rw [hn] at hn'; cases hn' }
  | some n =>
    dsimp only
    by_cases hlive : n.live = true
    · rw [if_pos hlive]
      have hm : m < g.nodes.length := (List.getElem?_eq_some_iff.mp hn).1
      unfold hashconsLookup
      cases hchain : chainFind g.nodes n.op n.data n.kids g.nodes.length
          (g.hashcons (nodeHash n.op n.data n.kids)) with
      | none => exact h.insert hn (h.keyed.not_found h.stored (le_of_lt hm) hchain)
      | some j =>
        obtain ⟨n', hn', hlive', hop, hdata, hkids⟩ := chainFind_sound hchain
        have hj : j ≠ m := ne_of_lt (chainFind_lt h.stored.chain hchain (h.keyed.heads _))
        have hclsOf : ∀ {g : EGraph} {i : Nat} {n : EgNode}, g.nodes[i]? = some n → clsOf g i = n.cls := by
          intro g i n hn
          unfold clsOf
          rw [hn]
          rfl
        dsimp only
        -- both finds name the classes the two nodes are in, and change no root
        have hfirst := egFind_same h.stored.grove (clsOf g j)
        have hother : (egFind g (clsOf g j)).1 = n'.cls := by
          rw [egFind_fst, hclsOf hn', h.stored.root_cls hn']
        have hn₁ : (egFind g (clsOf g j)).2.nodes[m]? = some n := by rw [hfirst.nodes, hn]
        have hsecond := egFind_same hfirst.halved.grove (clsOf (egFind g (clsOf g j)).2 m)
        have hmine : (egFind (egFind g (clsOf g j)).2 (clsOf (egFind g (clsOf g j)).2 m)).1 = n.cls := by
          rw [egFind_fst, hclsOf hn₁, hfirst.halved.root, h.stored.root_cls hn]
        simp only [hother, hmine]
        have hs := hfirst.trans hsecond
        generalize (egFind (egFind g (clsOf g j)).2 (clsOf (egFind g (clsOf g j)).2 m)).2 = g₂ at hs ⊢
        have h₂ := h.same hs
        have hn₂ : g₂.nodes[m]? = some n := by rw [hs.nodes, hn]
        have hn₂' : g₂.nodes[j]? = some n' := by rw [hs.nodes, hn']
        by_cases hcls : n'.cls = n.cls
        · rw [if_neg (not_not.mpr hcls)]
          exact h₂.retire hj hn₂ hn₂' hlive' hop hdata hkids hcls
        · rw [if_pos hcls]
          obtain ⟨hmerged, c, hnode, hnode'⟩ := h₂.merge hn₂ hn₂' hop hdata hkids hcls
          exact hmerged.retire hj hnode hnode' hlive' hop hdata hkids rfl
    · rw [if_neg hlive]
      refine { h with keyed := h.keyed.skip fun n₁ hn₁ => ?_ }
      rw [hn] at hn₁
      obtain rfl := Option.some.inj hn₁
      exact Bool.not_eq_true _ ▸ hlive

/-! ## The rounds -/

/-- Between calls: the map holds all nodes, and stale children are announced. -/
structure Kept (g : EGraph) (ts : List EgTerm) (E : List (EgTerm × EgTerm)) : Prop where
  stored : Stored g
  meant : Meant g ts E
  keyed : Keyed g g.nodes.length
  canonical : g.worklist = [] → Canonical g

theorem rebuildRound_spec (hg : Stored g) (hm : Meant g ts E) : Kept (rebuildRound g) ts E ∧
    rootCount (rebuildRound g) ≤ rootCount g ∧
      ((rebuildRound g).worklist ≠ [] → rootCount (rebuildRound g) < rootCount g) := by
  unfold rebuildRound
  dsimp only
  have hreset : Stored { g with worklist := [], hashcons := fun _ => none } :=
    ⟨hg.grove, hg.classes, hg.nodes, hg.kids, hg.cls, hg.listed, hg.once, hg.chain⟩
  have hresetMeant : Meant { g with worklist := [], hashcons := fun _ => none } ts E :=
    ⟨hm.count, hm.classes_sound, hm.nodes_sound, hm.merged, hm.built⟩
  have hfirst := recanonicalised hreset g.nodes.length
  generalize (List.range g.nodes.length).foldl recanonicalise { g with worklist := [], hashcons := fun _ => none } = g₁
    at hfirst ⊢
  have hbegin : Repaired g₁ g₁ 0 ts E := by
    refine ⟨hfirst.stored hreset, hfirst.meant hreset hresetMeant, ⟨fun key j hj => ?_, fun i hi => ?_, fun i hi => ?_⟩,
      rfl, fun _ => hfirst.canonical hreset rfl, le_refl _, fun hw => absurd hfirst.worklist hw⟩
    · rw [hfirst.hashcons] at hj
      cases hj
    · exact absurd hi (Nat.not_lt_zero i)
    · exact absurd hi (Nat.not_lt_zero i)
  have hrun : ∀ m, Repaired g₁ ((List.range m).foldl rekey g₁) m ts E := by
    intro m
    induction m with
    | zero => exact hbegin
    | succ m ih =>
      rw [List.range_succ, List.foldl_append, List.foldl_cons, List.foldl_nil]
      exact rekey_spec ih
  have hend := hrun g₁.nodes.length
  have hroots : rootCount g₁ = rootCount g := by
    unfold rootCount
    rw [hfirst.halved.length]
    congr 1
    exact Finset.filter_congr fun x _ => by rw [hfirst.halved.root]
  have hcount : ((List.range g₁.nodes.length).foldl rekey g₁).nodes.length = g₁.nodes.length := by
    rw [hend.stored.nodes, hend.count, hbegin.stored.nodes]
  rw [← hroots]
  refine ⟨⟨hend.stored, hend.meant, ?_, hend.canonical⟩, hend.roots, hend.fewer⟩
  rw [hcount]
  exact hend.keyed

/-- **Repair ends**, and the worklist is empty then. -/
theorem rebuild_settles (h : Kept g ts E) : ∃ g', Settles (fun fuel => egRebuild fuel g) g' ∧ Kept g' ts E ∧
    g'.worklist = [] := by
  refine settles_loop (P := fun g => Kept g ts E) (fun _ g => some (if g.worklist = [] then .inr g else .inl (rebuildRound g)))
    (fun g => 2 * rootCount g + if g.worklist = [] then 0 else 1) (fun g h => ?_) g h
  refine ⟨_, .const _, fun g' hgo => ?_, fun g' hleave => ?_⟩
  · by_cases hw : g.worklist = []
    · rw [if_pos hw] at hgo
      cases hgo
    · rw [if_neg hw] at hgo
      obtain rfl := Sum.inl.inj hgo
      obtain ⟨hkept, hle, hlt⟩ := rebuildRound_spec h.stored h.meant
      refine ⟨?_, hkept⟩
      rw [if_neg hw]
      by_cases hw' : (rebuildRound g).worklist = []
      · rw [if_pos hw']
        omega
      · rw [if_neg hw']
        have := hlt hw'
        omega
  · by_cases hw : g.worklist = []
    · rw [if_pos hw] at hleave
      obtain rfl := Sum.inr.inj hleave
      exact ⟨h, hw⟩
    · rw [if_neg hw] at hleave
      cases hleave

end Bbq.Egraph
