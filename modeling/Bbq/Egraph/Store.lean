import Mathlib.Data.List.GetD
import Bbq.Egraph.Find

/-!
# What adding and merging change

`Stored g`: the union-find, the class lists and the nodes of `g` fit together. The class of a node is a
root, and it lists the node exactly once; no other class lists it. Chains lead to smaller indices.

* `egMerge_spec`: two roots become one, and the nodes of the one become nodes of the other (`Merged`).
* `egAdd_spec`: a live node with the same key is found, or a node and its class are added (`Added`).
-/

namespace Bbq.Egraph

open Bbq.Lib.Forest

/-- The parts of a graph fit together. -/
structure Stored (g : EGraph) : Prop where
  grove : Grove g.parent
  classes : g.classes.length = g.parent.length
  nodes : g.nodes.length = g.parent.length
  kids : ∀ (i : Nat) (n : EgNode), g.nodes[i]? = some n → ∀ k ∈ n.kids, k < g.parent.length
  cls : ∀ (i : Nat) (n : EgNode), g.nodes[i]? = some n → n.cls < g.parent.length ∧ up g.parent n.cls = n.cls
  listed : ∀ (i c : Nat), i ∈ nodeIdx g c ↔ ∃ n : EgNode, g.nodes[i]? = some n ∧ n.cls = c
  once : ∀ c, (nodeIdx g c).Nodup
  chain : ∀ (i : Nat) (n : EgNode) (j : Nat), g.nodes[i]? = some n → n.next_hash = some j → j < i

theorem Halved.up_iff {p p' : List Nat} (h : Halved p p') (hp : Grove p) (x : Nat) : up p' x = x ↔ up p x = x := by
  constructor
  · intro hx
    have hroot := h.grove.root_of_up hx
    rw [h.root x] at hroot
    have hup := hp.up_root x
    rwa [hroot] at hup
  · intro hx
    have hroot := hp.root_of_up hx
    rw [← h.root x] at hroot
    have hup := h.grove.up_root x
    rwa [hroot] at hup

theorem Same.stored {g g' : EGraph} (h : Same g g') (hg : Stored g) : Stored g' where
  grove := h.halved.grove
  classes := by rw [h.classes, h.halved.length]; exact hg.classes
  nodes := by rw [h.nodes, h.halved.length]; exact hg.nodes
  kids := by rw [h.nodes, h.halved.length]; exact hg.kids
  cls := by
    intro i n hn
    rw [h.nodes] at hn
    rw [h.halved.length, h.halved.up_iff hg.grove]
    exact hg.cls i n hn
  listed := by
    unfold nodeIdx
    rw [h.nodes, h.classes]
    exact hg.listed
  once := by
    unfold nodeIdx
    rw [h.classes]
    exact hg.once
  chain := by rw [h.nodes]; exact hg.chain

theorem Stored.root_cls {g : EGraph} (hg : Stored g) {i : Nat} {n : EgNode} (hn : g.nodes[i]? = some n) :
    root g.parent n.cls = n.cls := hg.grove.root_of_up (hg.cls i n hn).2

theorem Stored.lt_of_node {g : EGraph} (hg : Stored g) {i : Nat} {n : EgNode} (hn : g.nodes[i]? = some n) :
    i < g.parent.length := by
  rw [← hg.nodes]
  exact (List.getElem?_eq_some_iff.mp hn).1

/-! ## Merging -/

/-- The nodes listed in `l` become nodes of `a`. -/
def reclass (nodes : List EgNode) (a : Nat) (l : List Nat) : List EgNode :=
  l.foldl (fun nodes idx => nodes.modify idx fun n => { n with cls := a }) nodes

theorem reclass_getElem? (nodes : List EgNode) (a : Nat) (l : List Nat) (i : Nat) :
    (reclass nodes a l)[i]? = (nodes[i]?).map fun n => if i ∈ l then { n with cls := a } else n := by
  induction l generalizing nodes with
  | nil =>
    simp only [reclass, List.foldl_nil, List.not_mem_nil, if_false, Option.map_id']
  | cons idx l ih =>
    have hstep : reclass nodes a (idx :: l) = reclass (nodes.modify idx fun n => { n with cls := a }) a l := rfl
    rw [hstep, ih, List.getElem?_modify, Option.map_eq_map, Option.map_map]
    congr 1
    funext n
    by_cases hi : idx = i
    · subst hi
      simp only [if_true, Function.comp_apply, List.mem_cons, true_or]
      split
      · rfl
      · rfl
    · have hmem : i ∈ idx :: l ↔ i ∈ l := by
        rw [List.mem_cons]
        exact ⟨fun h => h.resolve_left (Ne.symm hi), .inr⟩
      simp only [hi, if_false, Function.comp_apply, hmem]

theorem length_reclass (nodes : List EgNode) (a : Nat) (l : List Nat) : (reclass nodes a l).length = nodes.length := by
  unfold reclass
  induction l generalizing nodes with
  | nil => rfl
  | cons idx l ih => rw [List.foldl_cons, ih, List.length_modify]

theorem moveNodes_eq (g : EGraph) (a b : Nat) : moveNodes g a b =
    { g with
      nodes := reclass g.nodes a (nodeIdx g b)
      classes := (g.classes.modify a (· ++ nodeIdx g b)).set b [] } := by
  have hfold : ∀ (l : List Nat) (g : EGraph),
      l.foldl (fun g idx => classPush (modifyNode g idx fun n => { n with cls := a }) a idx) g =
        { g with nodes := reclass g.nodes a l, classes := g.classes.modify a (· ++ l) } := by
    intro l
    induction l with
    | nil =>
      intro g
      have hid : g.classes.modify a (fun l => l ++ []) = g.classes := by
        simp only [List.append_nil]
        exact List.modify_id a g.classes
      simp only [List.foldl_nil, reclass, hid]
    | cons idx l ih =>
      intro g
      rw [List.foldl_cons, ih]
      have hmodify : (g.classes.modify a (fun ns => ns ++ [idx])).modify a (fun ns => ns ++ l) =
          g.classes.modify a (fun ns => ns ++ idx :: l) := by
        rw [List.modify_modify_eq]
        congr 1
        funext ns
        simp
      simp only [classPush, modifyNode, hmodify]
      rfl
  unfold moveNodes
  rw [hfold]

/-- The class `q` became part of `p`. -/
structure Merged (g g' : EGraph) (p q : Nat) : Prop where
  length : g'.parent.length = g.parent.length
  root : ∀ x, root g'.parent x = if root g.parent x = q then p else root g.parent x
  nodes : ∀ i : Nat, g'.nodes[i]? = (g.nodes[i]?).map fun n => if n.cls = q then { n with cls := p } else n
  hashcons : g'.hashcons = g.hashcons
  worklist : g'.worklist = g.worklist ++ [p]
  stored : Stored g'

/-- The parents after `b` is hung below `a`. -/
theorem grove_link {parent : List Nat} (hp : Grove parent) {a b : Nat} (ha : up parent a = a) (hb : up parent b = b)
    (hne : a ≠ b) (hal : a < parent.length) (hbl : b < parent.length) :
    Grove (parent.set b a) ∧ (∀ x, root (parent.set b a) x = if root parent x = b then a else root parent x) ∧
      ∀ x, up (parent.set b a) x = x ↔ up parent x = x ∧ x ≠ b := by
  have hset : up (parent.set b a) = link (up parent) a b := up_set hbl
  have habove : ∀ x, ∃ k, Above (up (parent.set b a)) k x (if root parent x = b then a else root parent x) := by
    intro x
    obtain ⟨k, hx⟩ := hp.above_root x
    rw [hset]
    exact hx.link ha hb hne
  have hgrove : Grove (parent.set b a) := by
    refine ⟨fun x hx => ?_, fun x => ?_⟩
    · rw [List.length_set] at hx ⊢
      rw [up_set hbl]
      by_cases hxb : x = b
      · rw [hxb, Function.update_self]
        exact hal
      · rw [Function.update_of_ne hxb]
        exact hp.below x hx
    · obtain ⟨k, hx⟩ := habove x
      exact ⟨k, _, hx⟩
  refine ⟨hgrove, fun x => ?_, fun x => ?_⟩
  · obtain ⟨k, hx⟩ := habove x
    exact hgrove.root_eq hx
  · rw [up_set hbl]
    by_cases hxb : x = b
    · subst hxb
      rw [Function.update_self]
      constructor
      · intro h
        exact absurd h hne
      · rintro ⟨-, h⟩
        exact absurd rfl h
    · rw [Function.update_of_ne hxb]
      exact ⟨fun h => ⟨h, hxb⟩, fun h => h.1⟩

theorem nodeIdx_modify_set (g : EGraph) {a b c : Nat} (hne : a ≠ b) (hal : a < g.classes.length) (l : List Nat) :
    ((g.classes.modify a (· ++ l)).set b []).getD c [] =
      if c = b then [] else if c = a then nodeIdx g a ++ l else nodeIdx g c := by
  simp only [List.getD_eq_getElem?_getD, nodeIdx]
  by_cases hcb : c = b
  · subst hcb
    rw [if_pos rfl, List.getElem?_set]
    split
    · split
      · rfl
      · rfl
    · next h => exact absurd rfl h
  · rw [if_neg hcb, List.getElem?_set_ne (Ne.symm hcb), List.getElem?_modify]
    by_cases hca : c = a
    · subst hca
      rw [if_pos rfl]
      simp [List.getElem?_eq_getElem hal]
    · rw [if_neg hca]
      simp [Ne.symm hca]

/-- The part of a merge that is made once the roots are known to differ. -/
def absorb (g : EGraph) (a b : Nat) : EGraph :=
  let g := moveNodes { g with parent := g.parent.set b a } a b
  { g with worklist := g.worklist ++ [a] }

theorem absorb_merged {g : EGraph} (hg : Stored g) {a b : Nat} (ha : up g.parent a = a) (hb : up g.parent b = b)
    (hne : a ≠ b) (hal : a < g.parent.length) (hbl : b < g.parent.length) : Merged g (absorb g a b) a b := by
  obtain ⟨hgrove, hroot, hup⟩ := grove_link hg.grove ha hb hne hal hbl
  have hnodes : ∀ i : Nat, (absorb g a b).nodes[i]? =
      (g.nodes[i]?).map fun n => if n.cls = b then { n with cls := a } else n := by
    intro i
    change (moveNodes { g with parent := g.parent.set b a } a b).nodes[i]? = _
    rw [moveNodes_eq, reclass_getElem?]
    cases hn : g.nodes[i]? with
    | none => rfl
    | some n =>
      have hlisted : i ∈ nodeIdx g b ↔ n.cls = b := by
        rw [hg.listed]
        constructor
        · rintro ⟨n', hn', hcls⟩
          rw [hn] at hn'
          obtain rfl := Option.some.inj hn'
          exact hcls
        · intro hcls
          exact ⟨n, hn, hcls⟩
      simp only [Option.map_some, Option.some.injEq]
      change (if i ∈ nodeIdx g b then _ else _) = _
      simp only [hlisted]
  have hparent : (absorb g a b).parent = g.parent.set b a := by
    change (moveNodes { g with parent := g.parent.set b a } a b).parent = _
    rw [moveNodes_eq]
  have hclasses : (absorb g a b).classes = (g.classes.modify a (· ++ nodeIdx g b)).set b [] := by
    change (moveNodes { g with parent := g.parent.set b a } a b).classes = _
    rw [moveNodes_eq]
    rfl
  have hlist : ∀ c, nodeIdx (absorb g a b) c =
      if c = b then [] else if c = a then nodeIdx g a ++ nodeIdx g b else nodeIdx g c := by
    intro c
    change (absorb g a b).classes.getD c [] = _
    rw [hclasses]
    exact nodeIdx_modify_set g hne (by rw [hg.classes]; exact hal) _
  have hlen : (absorb g a b).nodes.length = g.nodes.length := by
    change (moveNodes { g with parent := g.parent.set b a } a b).nodes.length = _
    rw [moveNodes_eq]
    exact length_reclass g.nodes a _
  have hcls : ∀ (i : Nat) (n : EgNode), (absorb g a b).nodes[i]? = some n → ∃ n', g.nodes[i]? = some n' ∧
      n = if n'.cls = b then { n' with cls := a } else n' := by
    intro i n hn
    rw [hnodes, Option.map_eq_some_iff] at hn
    obtain ⟨n', hn', rfl⟩ := hn
    exact ⟨n', hn', rfl⟩
  have hstored : Stored (absorb g a b) := by
    refine ⟨?_, ?_, ?_, ?_, ?_, ?_, ?_, ?_⟩
    · rw [hparent]
      exact hgrove
    · rw [hclasses, hparent, List.length_set, List.length_set, List.length_modify]
      exact hg.classes
    · rw [hparent, List.length_set, hlen]
      exact hg.nodes
    · intro i n hn
      obtain ⟨n', hn', rfl⟩ := hcls i n hn
      rw [hparent, List.length_set]
      have hkids := hg.kids i n' hn'
      split
      · exact hkids
      · exact hkids
    · intro i n hn
      obtain ⟨n', hn', rfl⟩ := hcls i n hn
      rw [hparent, List.length_set, hup]
      obtain ⟨hlt, hroot'⟩ := hg.cls i n' hn'
      by_cases hb' : n'.cls = b
      · rw [if_pos hb']
        exact ⟨hal, ha, hne⟩
      · rw [if_neg hb']
        exact ⟨hlt, hroot', hb'⟩
    · intro i c
      have hsome : (∃ n : EgNode, (absorb g a b).nodes[i]? = some n ∧ n.cls = c) ↔
          ∃ n : EgNode, g.nodes[i]? = some n ∧ (if n.cls = b then a else n.cls) = c := by
        rw [hnodes]
        constructor
        · rintro ⟨n, hn, rfl⟩
          obtain ⟨n', hn', rfl⟩ := Option.map_eq_some_iff.mp hn
          refine ⟨n', hn', ?_⟩
          split
          · rfl
          · rfl
        · rintro ⟨n, hn, rfl⟩
          refine ⟨_, Option.map_eq_some_iff.mpr ⟨n, hn, rfl⟩, ?_⟩
          split
          · rfl
          · rfl
      rw [hsome, hlist]
      by_cases hcb : c = b
      · subst hcb
        rw [if_pos rfl]
        constructor
        · intro h
          cases h
        · rintro ⟨n, -, hn⟩
          split at hn
          · exact absurd hn hne
          · next h => exact absurd hn h
      · rw [if_neg hcb]
        by_cases hca : c = a
        · subst hca
          rw [if_pos rfl, List.mem_append, hg.listed, hg.listed]
          constructor
          · rintro (⟨n, hn, hcls⟩ | ⟨n, hn, hcls⟩)
            · exact ⟨n, hn, by rw [if_neg (by rw [hcls]; exact hne), hcls]⟩
            · exact ⟨n, hn, if_pos hcls⟩
          · rintro ⟨n, hn, hcls⟩
            by_cases hb' : n.cls = b
            · exact .inr ⟨n, hn, hb'⟩
            · rw [if_neg hb'] at hcls
              exact .inl ⟨n, hn, hcls⟩
        · rw [if_neg hca, hg.listed]
          constructor
          · rintro ⟨n, hn, hcls⟩
            exact ⟨n, hn, by rw [if_neg (by rw [hcls]; exact hcb), hcls]⟩
          · rintro ⟨n, hn, hcls⟩
            by_cases hb' : n.cls = b
            · rw [if_pos hb'] at hcls
              exact absurd hcls.symm hca
            · rw [if_neg hb'] at hcls
              exact ⟨n, hn, hcls⟩
    · intro c
      rw [hlist]
      split
      · exact List.nodup_nil
      · split
        · refine List.nodup_append.mpr ⟨hg.once a, hg.once b, fun i hi j hj hij => ?_⟩
          subst hij
          obtain ⟨n, hn, hcls⟩ := (hg.listed i a).mp hi
          obtain ⟨n', hn', hcls'⟩ := (hg.listed i b).mp hj
          rw [hn] at hn'
          obtain rfl := Option.some.inj hn'
          exact hne (hcls.symm.trans hcls')
        · exact hg.once c
    · intro i n j hn hj
      obtain ⟨n', hn', rfl⟩ := hcls i n hn
      refine hg.chain i n' j hn' ?_
      split at hj
      · exact hj
      · exact hj
  refine ⟨by rw [hparent, List.length_set], fun x => ?_, hnodes, ?_, ?_, hstored⟩
  · rw [hparent]
    exact hroot x
  · change (moveNodes { g with parent := g.parent.set b a } a b).hashcons = _
    rw [moveNodes_eq]
  · change (moveNodes { g with parent := g.parent.set b a } a b).worklist ++ [a] = _
    rw [moveNodes_eq]

theorem egMerge_spec {g : EGraph} (hg : Stored g) {a b : Nat} (ha : egValid g a) (hb : egValid g b) :
    root g.parent a = root g.parent b ∧ (egMerge g a b).1 = false ∧ Same g (egMerge g a b).2 ∨
      root g.parent a ≠ root g.parent b ∧ (egMerge g a b).1 = true ∧
        ∃ p q, (p = root g.parent a ∧ q = root g.parent b ∨ p = root g.parent b ∧ q = root g.parent a) ∧
          Merged g (egMerge g a b).2 p q := by
  have hfirst := egFind_same hg.grove a
  have hsecond := egFind_same hfirst.halved.grove b
  have hsame := hfirst.trans hsecond
  have hrootb : (egFind (egFind g a).2 b).1 = root g.parent b := hfirst.halved.root b
  have hstored := hsame.stored hg
  have hup : ∀ x, up (egFind (egFind g a).2 b).2.parent (root g.parent x) = root g.parent x := fun x =>
    (hsame.halved.up_iff hg.grove _).mpr (hg.grove.up_root x)
  have hlt : ∀ x, egValid g x → root g.parent x < (egFind (egFind g a).2 b).2.parent.length := fun x hx => by
    rw [hsame.halved.length]
    exact hg.grove.root_lt hx
  unfold egMerge
  rw [if_pos ⟨ha, hb⟩]
  dsimp only
  rw [egFind_fst g a, hrootb]
  by_cases hroots : root g.parent a = root g.parent b
  · rw [if_pos hroots]
    exact .inl ⟨hroots, rfl, hsame⟩
  · rw [if_neg hroots]
    have hmerged : ∀ p q, p ≠ q → (p = root g.parent a ∧ q = root g.parent b ∨ p = root g.parent b ∧ q = root g.parent a) →
        Merged g (absorb (egFind (egFind g a).2 b).2 p q) p q := by
      intro p q hpq hchoice
      have hm : Merged (egFind (egFind g a).2 b).2 (absorb (egFind (egFind g a).2 b).2 p q) p q := by
        rcases hchoice with ⟨rfl, rfl⟩ | ⟨rfl, rfl⟩
        · exact absorb_merged hstored (hup a) (hup b) hpq (hlt a ha) (hlt b hb)
        · exact absorb_merged hstored (hup b) (hup a) hpq (hlt b hb) (hlt a ha)
      refine ⟨hm.length.trans hsame.halved.length, fun x => ?_, fun i => ?_, ?_, ?_, hm.stored⟩
      · rw [hm.root, hsame.halved.root]
      · rw [hm.nodes, hsame.nodes]
      · rw [hm.hashcons, hsame.hashcons]
      · rw [hm.worklist, hsame.worklist]
    refine .inr ⟨hroots, rfl, ?_⟩
    split
    · exact ⟨_, _, .inr ⟨rfl, rfl⟩, hmerged _ _ (Ne.symm hroots) (.inr ⟨rfl, rfl⟩)⟩
    · exact ⟨_, _, .inl ⟨rfl, rfl⟩, hmerged _ _ hroots (.inl ⟨rfl, rfl⟩)⟩

/-! ## The hashcons -/

/-- `i` is on the chain that begins at `head`. -/
inductive OnChain (nodes : List EgNode) : Option Nat → Nat → Prop
  | here {i : Nat} : OnChain nodes (some i) i
  | next {i j : Nat} {n : EgNode} : nodes[i]? = some n → OnChain nodes n.next_hash j → OnChain nodes (some i) j

/-- A chain is as it was where the nodes below a bound keep their links. -/
theorem OnChain.mono {nodes nodes' : List EgNode} {bound : Nat}
    (hchain : ∀ (i : Nat) (n : EgNode) (j : Nat), nodes[i]? = some n → n.next_hash = some j → j < i)
    (hkeep : ∀ i < bound, ∀ n : EgNode, nodes[i]? = some n → ∃ n', nodes'[i]? = some n' ∧ n'.next_hash = n.next_hash)
    {head : Option Nat} {i : Nat} (h : OnChain nodes head i) (hhead : ∀ j, head = some j → j < bound) :
    OnChain nodes' head i := by
  induction h with
  | here => exact .here
  | @next i j n hn _ ih =>
    have hi := hhead i rfl
    obtain ⟨n', hn', hnext⟩ := hkeep i hi n hn
    refine .next hn' ?_
    rw [hnext]
    exact ih fun j hj => lt_trans (hchain i n j hn hj) hi

theorem nodeMatches_iff {n : EgNode} {op data : Int} {kids : List Nat} :
    nodeMatches n op data kids = true ↔ n.op = op ∧ n.data = data ∧ n.kids = kids := by
  simp only [nodeMatches, Bool.and_eq_true, beq_iff_eq, and_assoc]

section ChainFind

variable {nodes : List EgNode} {op data : Int} {kids : List Nat} {turns : Nat} {head : Option Nat} {i : Nat}

theorem chainFind_sound (h : chainFind nodes op data kids turns head = some i) :
    ∃ n, nodes[i]? = some n ∧ n.live = true ∧ n.op = op ∧ n.data = data ∧ n.kids = kids := by
  induction turns generalizing head with
  | zero => cases h
  | succ turns ih =>
    cases head with
    | none => cases h
    | some j =>
      unfold chainFind at h
      split at h
      · cases h
      · next n hn =>
        split at h
        · next hmatch =>
          rw [Bool.and_eq_true, nodeMatches_iff] at hmatch
          obtain rfl := Option.some.inj h
          exact ⟨n, hn, hmatch⟩
        · exact ih h

theorem chainFind_lt
    (hchain : ∀ (i : Nat) (n : EgNode) (j : Nat), nodes[i]? = some n → n.next_hash = some j → j < i) {m : Nat}
    (h : chainFind nodes op data kids turns head = some i) (hhead : ∀ j, head = some j → j < m) : i < m := by
  induction turns generalizing head with
  | zero => cases h
  | succ turns ih =>
    cases head with
    | none => cases h
    | some j =>
      have hj := hhead j rfl
      unfold chainFind at h
      split at h
      · cases h
      · next n hn =>
        split at h
        · obtain rfl := Option.some.inj h
          exact hj
        · exact ih h fun k hk => lt_trans (hchain j n k hn hk) hj

theorem chainFind_complete
    (hchain : ∀ (i : Nat) (n : EgNode) (j : Nat), nodes[i]? = some n → n.next_hash = some j → j < i)
    (h : OnChain nodes head i) {n : EgNode} (hn : nodes[i]? = some n) (hlive : n.live = true) (hop : n.op = op)
    (hdata : n.data = data) (hkids : n.kids = kids) (hturns : ∀ j, head = some j → j < turns) :
    ∃ j, chainFind nodes op data kids turns head = some j := by
  have hmatch : (n.live && nodeMatches n op data kids) = true := by
    rw [Bool.and_eq_true, nodeMatches_iff]
    exact ⟨hlive, hop, hdata, hkids⟩
  induction h generalizing turns with
  | @here i =>
    obtain ⟨turns, rfl⟩ : ∃ t, turns = t + 1 := ⟨turns - 1, by have := hturns i rfl; omega⟩
    refine ⟨i, ?_⟩
    simp only [chainFind, hn, hmatch, if_true]
  | @next i j m hm _ ih =>
    have hi := hturns i rfl
    obtain ⟨turns, rfl⟩ : ∃ t, turns = t + 1 := ⟨turns - 1, by omega⟩
    simp only [chainFind, hm]
    by_cases hfirst : (m.live && nodeMatches m op data kids) = true
    · rw [if_pos hfirst]
      exact ⟨i, rfl⟩
    · rw [if_neg hfirst]
      refine ih hn fun k hk => ?_
      have := hchain i m k hm hk
      omega

end ChainFind

/-- The first `m` nodes are in the map: the live ones are on their chains, with different keys. -/
structure Keyed (g : EGraph) (m : Nat) : Prop where
  heads : ∀ (h : BitVec 64) (j : Nat), g.hashcons h = some j → j < m
  chained : ∀ i < m, ∀ n : EgNode, g.nodes[i]? = some n → n.live = true →
    OnChain g.nodes (g.hashcons (nodeHash n.op n.data n.kids)) i
  apart : ∀ i < m, ∀ j < m, ∀ n n' : EgNode, g.nodes[i]? = some n → g.nodes[j]? = some n' → n.live = true →
    n'.live = true → n.op = n'.op → n.data = n'.data → n.kids = n'.kids → i = j

theorem Keyed.same {g g' : EGraph} {m : Nat} (h : Keyed g m) (hs : Same g g') : Keyed g' m := by
  refine ⟨?_, ?_, ?_⟩
  · rw [hs.hashcons]
    exact h.heads
  · rw [hs.hashcons, hs.nodes]
    exact h.chained
  · rw [hs.nodes]
    exact h.apart

/-- Nothing in the map has the key. -/
theorem Keyed.not_found {g : EGraph} {m : Nat} (h : Keyed g m) (hg : Stored g) (hm : m ≤ g.nodes.length) {op data : Int}
    {kids : List Nat}
    (hnone : chainFind g.nodes op data kids g.nodes.length (g.hashcons (nodeHash op data kids)) = none) :
    ∀ i < m, ∀ n : EgNode, g.nodes[i]? = some n → n.live = true → n.op = op → n.data = data → n.kids ≠ kids := by
  rintro i hi n hn hlive rfl rfl rfl
  obtain ⟨j, hj⟩ := chainFind_complete hg.chain (h.chained i hi n hn hlive) hn hlive rfl rfl rfl
    fun j hj => lt_of_lt_of_le (h.heads _ j hj) hm
  rw [hnone] at hj
  cases hj

theorem hashconsInsert_getElem? (g : EGraph) (m : Nat) (h : BitVec 64) (i : Nat) :
    (hashconsInsert g m h).nodes[i]? =
      (g.nodes[i]?).map fun n => if m = i then { n with next_hash := g.hashcons h } else n :=
  List.getElem?_modify ..

/-- A node goes into the map with a key of its own. -/
theorem Keyed.insert {g : EGraph} {m : Nat} (h : Keyed g m) (hg : Stored g) {n : EgNode}
    (hn : g.nodes[m]? = some n)
    (hnone : ∀ i < m, ∀ n' : EgNode, g.nodes[i]? = some n' → n'.live = true → n'.op = n.op → n'.data = n.data →
      n'.kids ≠ n.kids) : Keyed (hashconsInsert g m (nodeHash n.op n.data n.kids)) (m + 1) := by
  generalize hkey' : nodeHash n.op n.data n.kids = key'
  have hnodes := hashconsInsert_getElem? g m key'
  have hself : ∀ i < m, (hashconsInsert g m (key')).nodes[i]? = g.nodes[i]? := by
    intro i hi
    rw [hnodes]
    have hne : m ≠ i := by omega
    simp only [hne, if_false, Option.map_id']
  have hnew : (hashconsInsert g m (key')).nodes[m]? =
      some { n with next_hash := g.hashcons (key') } := by
    rw [hnodes, hn, Option.map_some, if_pos rfl]
  have hold : ∀ i < m, ∀ (n' : EgNode), g.nodes[i]? = some n' → n'.live = true →
      OnChain (hashconsInsert g m (key')).nodes
        (g.hashcons (nodeHash n'.op n'.data n'.kids)) i := by
    intro i hi n' hn' hlive
    refine (h.chained i hi n' hn' hlive).mono hg.chain (fun j hj n'' hn'' => ?_) (h.heads _)
    exact ⟨n'', by rw [hself j hj, hn''], rfl⟩
  refine ⟨fun key j hj => ?_, fun i hi n' hn' hlive => ?_, fun i hi j hj n₁ n₂ hn₁ hn₂ hlive₁ hlive₂ hop hdata hkids => ?_⟩
  · change Function.update g.hashcons _ (some m) key = some j at hj
    by_cases hkey : key = key'
    · rw [hkey, Function.update_self] at hj
      obtain rfl := Option.some.inj hj
      exact Nat.lt_succ_self _
    · rw [Function.update_of_ne hkey] at hj
      exact Nat.lt_succ_of_lt (h.heads key j hj)
  · change OnChain _ (Function.update g.hashcons _ (some m) _) i
    rcases Nat.lt_succ_iff_lt_or_eq.mp hi with hi | rfl
    · rw [hself i hi] at hn'
      have hchain := hold i hi n' hn' hlive
      by_cases hkey : nodeHash n'.op n'.data n'.kids = key'
      · rw [hkey] at hchain ⊢
        rw [Function.update_self]
        exact .next hnew hchain
      · rw [Function.update_of_ne hkey]
        exact hchain
    · rw [hnew] at hn'
      obtain rfl := Option.some.inj hn'
      dsimp only
      rw [hkey', Function.update_self]
      exact .here
  · rcases Nat.lt_succ_iff_lt_or_eq.mp hi with hi | rfl
    · rw [hself i hi] at hn₁
      rcases Nat.lt_succ_iff_lt_or_eq.mp hj with hj | rfl
      · rw [hself j hj] at hn₂
        exact h.apart i hi j hj n₁ n₂ hn₁ hn₂ hlive₁ hlive₂ hop hdata hkids
      · rw [hnew] at hn₂
        obtain rfl := Option.some.inj hn₂
        exact absurd hkids (hnone i hi n₁ hn₁ hlive₁ hop hdata)
    · rw [hnew] at hn₁
      obtain rfl := Option.some.inj hn₁
      rcases Nat.lt_succ_iff_lt_or_eq.mp hj with hj | rfl
      · rw [hself j hj] at hn₂
        exact absurd hkids.symm (hnone j hj n₂ hn₂ hlive₂ hop.symm hdata.symm)
      · rfl

/-- Inserting into the map touches a link only, which leads to a smaller index. -/
theorem Stored.insert {g : EGraph} (hg : Stored g) {m : Nat} (h : BitVec 64)
    (hheads : ∀ j, g.hashcons h = some j → j < m) : Stored (hashconsInsert g m h) := by
  have hnodes := hashconsInsert_getElem? g m h
  have hback : ∀ (i : Nat) (n : EgNode), (hashconsInsert g m h).nodes[i]? = some n → ∃ n', g.nodes[i]? = some n' ∧
      n = if m = i then { n' with next_hash := g.hashcons h } else n' := by
    intro i n hn
    rw [hnodes, Option.map_eq_some_iff] at hn
    obtain ⟨n', hn', rfl⟩ := hn
    exact ⟨n', hn', rfl⟩
  refine ⟨hg.grove, hg.classes, ?_, fun i n hn => ?_, fun i n hn => ?_, fun i c => ?_, hg.once, fun i n j hn hj => ?_⟩
  · change (g.nodes.modify m _).length = _
    rw [List.length_modify]
    exact hg.nodes
  · obtain ⟨n', hn', rfl⟩ := hback i n hn
    have hkids := hg.kids i n' hn'
    split
    · exact hkids
    · exact hkids
  · obtain ⟨n', hn', rfl⟩ := hback i n hn
    have hcls := hg.cls i n' hn'
    split
    · exact hcls
    · exact hcls
  · refine (hg.listed i c).trans ?_
    rw [hnodes]
    constructor
    · rintro ⟨n, hn, rfl⟩
      refine ⟨_, Option.map_eq_some_iff.mpr ⟨n, hn, rfl⟩, ?_⟩
      split
      · rfl
      · rfl
    · rintro ⟨n, hn, rfl⟩
      obtain ⟨n', hn', rfl⟩ := Option.map_eq_some_iff.mp hn
      refine ⟨n', hn', ?_⟩
      split
      · rfl
      · rfl
  · obtain ⟨n', hn', rfl⟩ := hback i n hn
    by_cases hi : m = i
    · rw [if_pos hi] at hj
      rw [← hi]
      exact hheads j hj
    · rw [if_neg hi] at hj
      exact hg.chain i n' j hn' hj

/-! ## Adding -/

/-- A node for `op[data](kids)` and a class of its own are there. -/
structure Added (g g' : EGraph) (op data : Int) (kids : List Nat) : Prop where
  length : g'.parent.length = g.parent.length + 1
  root : ∀ x, root g'.parent x = root g.parent x
  old : ∀ i < g.nodes.length, g'.nodes[i]? = g.nodes[i]?
  new : ∃ n : EgNode, g'.nodes[g.nodes.length]? = some n ∧ n.op = op ∧ n.data = data ∧ n.kids = kids ∧
    n.cls = g.parent.length ∧ n.live = true
  count : g'.nodes.length = g.nodes.length + 1
  worklist : g'.worklist = g.worklist
  stored : Stored g'
  keyed : Keyed g' g'.nodes.length

theorem grove_grow {parent : List Nat} (hp : Grove parent) :
    Grove (parent ++ [parent.length]) ∧ ∀ x, up (parent ++ [parent.length]) x = up parent x := by
  have hup : ∀ x, up (parent ++ [parent.length]) x = up parent x := by
    intro x
    simp only [up, List.getD_eq_getElem?_getD]
    rcases lt_trichotomy x parent.length with hx | rfl | hx
    · rw [List.getElem?_append_left hx]
    · rw [List.getElem?_concat_length, List.getElem?_eq_none (le_refl _)]
      rfl
    · rw [List.getElem?_eq_none (by rw [List.length_append, List.length_singleton]; omega),
        List.getElem?_eq_none (le_of_lt hx)]
  have hfun : up (parent ++ [parent.length]) = up parent := funext hup
  refine ⟨⟨fun x hx => ?_, ?_⟩, hup⟩
  · rw [List.length_append, List.length_singleton] at hx ⊢
    rw [hup]
    rcases Nat.lt_succ_iff_lt_or_eq.mp hx with hx | rfl
    · exact Nat.lt_succ_of_lt (hp.below x hx)
    · have hself : up parent parent.length = parent.length := by
        by_contra hne
        exact lt_irrefl _ (lt_of_up_ne hne)
      rw [hself]
      exact Nat.lt_succ_self _
  · rw [hfun]
    exact hp.rooted

/-- The graph with a node in a class of its own, not yet in the map. -/
def pushNode (g : EGraph) (op data : Int) (kids : List Nat) : EGraph :=
  let (cls, g) := egNewClass g
  let idx := g.nodes.length
  let g := { g with nodes := g.nodes ++ [{ op, data, kids, cls, next_hash := none, live := true }] }
  classPush g cls idx

theorem modify_concat {β : Type} (l : List β) (x : β) (f : β → β) : (l ++ [x]).modify l.length f = l ++ [f x] := by
  induction l with
  | nil => rfl
  | cons y l ih => rw [List.cons_append, List.length_cons, List.modify_succ_cons, ih, List.cons_append]

theorem pushNode_classes (g : EGraph) (op data : Int) (kids : List Nat) :
    (pushNode g op data kids).classes = g.classes ++ [[g.nodes.length]] := by
  change (g.classes ++ [[]]).modify g.classes.length (· ++ [g.nodes.length]) = _
  rw [modify_concat, List.nil_append]

theorem pushNode_stored {g : EGraph} (hg : Stored g) {op data : Int} {kids : List Nat}
    (hkids : ∀ k ∈ kids, k < g.parent.length) : Stored (pushNode g op data kids) := by
  have hparent : (pushNode g op data kids).parent = g.parent ++ [g.parent.length] := by
    change g.parent ++ [g.classes.length] = _
    rw [hg.classes]
  have hnodes : (pushNode g op data kids).nodes = g.nodes ++ [⟨op, data, kids, g.parent.length, none, true⟩] := by
    change g.nodes ++ [⟨op, data, kids, g.classes.length, none, true⟩] = _
    rw [hg.classes]
  obtain ⟨hgrove, hup⟩ := grove_grow hg.grove
  have hlen : (g.parent ++ [g.parent.length]).length = g.parent.length + 1 := by
    rw [List.length_append, List.length_singleton]
  have hcases : ∀ (i : Nat) (n : EgNode), (pushNode g op data kids).nodes[i]? = some n →
      g.nodes[i]? = some n ∨ i = g.nodes.length ∧ n = ⟨op, data, kids, g.parent.length, none, true⟩ := by
    intro i n hn
    rw [hnodes] at hn
    rcases lt_trichotomy i g.nodes.length with hi | rfl | hi
    · rw [List.getElem?_append_left hi] at hn
      exact .inl hn
    · rw [List.getElem?_concat_length] at hn
      exact .inr ⟨rfl, (Option.some.inj hn).symm⟩
    · rw [List.getElem?_eq_none (by rw [List.length_append, List.length_singleton]; omega)] at hn
      cases hn
  have hidx : ∀ c, nodeIdx (pushNode g op data kids) c =
      if c = g.parent.length then [g.nodes.length] else nodeIdx g c := by
    intro c
    unfold nodeIdx
    rw [pushNode_classes, ← hg.classes]
    simp only [List.getD_eq_getElem?_getD]
    rcases lt_trichotomy c g.classes.length with hc | rfl | hc
    · rw [List.getElem?_append_left hc, if_neg (by omega)]
    · rw [List.getElem?_concat_length, if_pos rfl]
      rfl
    · rw [List.getElem?_eq_none (by rw [List.length_append, List.length_singleton]; omega),
        List.getElem?_eq_none (le_of_lt hc), if_neg (by omega)]
  refine ⟨?_, ?_, ?_, fun i n hn => ?_, fun i n hn => ?_, fun i c => ?_, fun c => ?_, fun i n j hn hj => ?_⟩
  · rw [hparent]
    exact hgrove
  · rw [hparent, pushNode_classes, hlen, List.length_append, List.length_singleton, hg.classes]
  · rw [hparent, hnodes, hlen, List.length_append, List.length_singleton, hg.nodes]
  · rw [hparent, hlen]
    rcases hcases i n hn with hn | ⟨-, rfl⟩
    · exact fun k hk => Nat.lt_succ_of_lt (hg.kids i n hn k hk)
    · exact fun k hk => Nat.lt_succ_of_lt (hkids k hk)
  · rw [hparent, hlen, hup]
    rcases hcases i n hn with hn | ⟨-, rfl⟩
    · obtain ⟨hlt, hroot⟩ := hg.cls i n hn
      exact ⟨Nat.lt_succ_of_lt hlt, hroot⟩
    · refine ⟨Nat.lt_succ_self _, ?_⟩
      by_contra hne
      exact lt_irrefl _ (lt_of_up_ne hne)
  · rw [hidx]
    by_cases hc : c = g.parent.length
    · rw [if_pos hc, List.mem_singleton]
      constructor
      · rintro rfl
        exact ⟨_, by rw [hnodes, List.getElem?_concat_length], hc.symm⟩
      · rintro ⟨n, hn, hcls⟩
        rcases hcases i n hn with hn | ⟨hi, -⟩
        · have := (hg.cls i n hn).1
          omega
        · exact hi
    · rw [if_neg hc, hg.listed]
      constructor
      · rintro ⟨n, hn, hcls⟩
        refine ⟨n, ?_, hcls⟩
        rw [hnodes, List.getElem?_append_left (List.getElem?_eq_some_iff.mp hn).1]
        exact hn
      · rintro ⟨n, hn, hcls⟩
        rcases hcases i n hn with hn | ⟨-, rfl⟩
        · exact ⟨n, hn, hcls⟩
        · exact absurd hcls.symm hc
  · rw [hidx]
    split
    · exact List.nodup_singleton _
    · exact hg.once c
  · rcases hcases i n hn with hn | ⟨-, rfl⟩
    · exact hg.chain i n j hn hj
    · cases hj

theorem pushNode_added {g : EGraph} (hg : Stored g) {m : Nat} (hm : m = g.nodes.length) (hk : Keyed g m) {op data : Int}
    {kids : List Nat} (hkids : ∀ k ∈ kids, k < g.parent.length)
    (hnone : ∀ i < m, ∀ n : EgNode, g.nodes[i]? = some n → n.live = true → n.op = op → n.data = data →
      n.kids ≠ kids) :
    Added g (hashconsInsert (pushNode g op data kids) m (nodeHash op data kids)) op data kids := by
  subst hm
  have hpushed : Stored (pushNode g op data kids) := pushNode_stored hg hkids
  have hnodes : (pushNode g op data kids).nodes = g.nodes ++ [⟨op, data, kids, g.parent.length, none, true⟩] := by
    change g.nodes ++ [⟨op, data, kids, g.classes.length, none, true⟩] = _
    rw [hg.classes]
  have hparent : (pushNode g op data kids).parent = g.parent ++ [g.parent.length] := by
    change g.parent ++ [g.classes.length] = _
    rw [hg.classes]
  have hnew : (pushNode g op data kids).nodes[g.nodes.length]? =
      some ⟨op, data, kids, g.parent.length, none, true⟩ := by
    rw [hnodes, List.getElem?_concat_length]
  have hold : ∀ i < g.nodes.length, (pushNode g op data kids).nodes[i]? = g.nodes[i]? := by
    intro i hi
    rw [hnodes, List.getElem?_append_left hi]
  have hcount : (hashconsInsert (pushNode g op data kids) g.nodes.length (nodeHash op data kids)).nodes.length =
      g.nodes.length + 1 := by
    change ((pushNode g op data kids).nodes.modify _ _).length = _
    rw [List.length_modify, hnodes, List.length_append, List.length_singleton]
  have hkeyed : Keyed (pushNode g op data kids) g.nodes.length := by
    refine ⟨hk.heads, fun i hi n hn hlive => ?_, fun i hi j hj n n' hn hn' => ?_⟩
    · rw [hold i hi] at hn
      refine (hk.chained i hi n hn hlive).mono hg.chain (fun j hj n' hn' => ?_) (hk.heads _)
      exact ⟨n', by rw [hold j hj, hn'], rfl⟩
    · rw [hold i hi] at hn
      rw [hold j hj] at hn'
      exact hk.apart i hi j hj n n' hn hn'
  have hinserted := hkeyed.insert hpushed hnew fun i hi n hn hlive hop hdata => by
    rw [hold i hi] at hn
    exact hnone i hi n hn hlive hop hdata
  refine ⟨?_, fun x => ?_, fun i hi => ?_, ?_, hcount, rfl, hpushed.insert _ (hkeyed.heads _), ?_⟩
  · change (pushNode g op data kids).parent.length = _
    rw [hparent, List.length_append, List.length_singleton]
  · change root (pushNode g op data kids).parent x = _
    rw [hparent]
    obtain ⟨hgrove, hup⟩ := grove_grow hg.grove
    obtain ⟨k, hx⟩ := hg.grove.above_root x
    have hfun : up (g.parent ++ [g.parent.length]) = up g.parent := funext hup
    rw [← hfun] at hx
    exact hgrove.root_eq hx
  · rw [hashconsInsert_getElem?, hold i hi]
    have hne : g.nodes.length ≠ i := by omega
    simp only [hne, if_false, Option.map_id']
  · refine ⟨_, by rw [hashconsInsert_getElem?, hnew, Option.map_some, if_pos rfl], rfl, rfl, rfl, rfl, rfl⟩
  · rw [hcount]
    exact hinserted

theorem Added.of_same {g g₁ g' : EGraph} (hs : Same g g₁) {op data : Int} {kids : List Nat}
    (h : Added g₁ g' op data kids) : Added g g' op data kids where
  length := by rw [h.length, hs.halved.length]
  root := fun x => (h.root x).trans (hs.halved.root x)
  old := by
    have hold := h.old
    rw [hs.nodes] at hold
    exact hold
  new := by
    have hnew := h.new
    rw [hs.nodes, hs.halved.length] at hnew
    exact hnew
  count := by rw [h.count, hs.nodes]
  worklist := h.worklist.trans hs.worklist
  stored := h.stored
  keyed := h.keyed

/-- **Adding**: what is there is found, and what is not gets a node and a class. -/
theorem egAdd_spec {g : EGraph} (hg : Stored g) (hk : Keyed g g.nodes.length) (op data : Int) {kids : List Nat}
    (hkids : ∀ k ∈ kids, egValid g k) :
    (∃ (i : Nat) (n : EgNode), g.nodes[i]? = some n ∧ n.live = true ∧ n.op = op ∧ n.data = data ∧
        n.kids = kids.map (root g.parent) ∧ (egAdd g op data kids).1 = some n.cls ∧
        Same g (egAdd g op data kids).2) ∨
      (∀ i < g.nodes.length, ∀ n : EgNode, g.nodes[i]? = some n → n.live = true → n.op = op → n.data = data →
          n.kids ≠ kids.map (root g.parent)) ∧
        (egAdd g op data kids).1 = some g.parent.length ∧
          Added g (egAdd g op data kids).2 op data (kids.map (root g.parent)) := by
  obtain ⟨hroots, hfound⟩ := findAll_spec hg.grove kids
  have hg₁ := hfound.stored hg
  have hk₁ := hk.same hfound
  unfold egAdd
  rw [if_pos hkids]
  generalize hfa : findAll g kids = r at hroots hfound hg₁ hk₁
  obtain ⟨ks, g₁⟩ := r
  dsimp only at hroots hfound hg₁ hk₁ ⊢
  subst hroots
  unfold hashconsLookup
  have hlen : g₁.nodes.length = g.nodes.length := by rw [hfound.nodes]
  cases hchain : chainFind g₁.nodes op data (kids.map (root g.parent)) g₁.nodes.length
      (g₁.hashcons (nodeHash op data (kids.map (root g.parent)))) with
  | some i =>
    obtain ⟨n, hn, hlive, hop, hdata, hkids'⟩ := chainFind_sound hchain
    refine .inl ⟨i, n, by rw [← hfound.nodes, hn], hlive, hop, hdata, hkids', ?_, ?_⟩
    · change some (egFind g₁ (clsOf g₁ i)).1 = _
      have hcls : clsOf g₁ i = n.cls := by
        unfold clsOf
        rw [hn]
        rfl
      rw [egFind_fst, hcls, hg₁.root_cls hn]
    · exact hfound.trans (egFind_same hg₁.grove _)
  | none =>
    have hnone := hk₁.not_found hg₁ (by rw [hlen]) hchain
    have hlt : ∀ k ∈ kids.map (root g.parent), k < g₁.parent.length := by
      intro k hk
      obtain ⟨x, hx, rfl⟩ := List.mem_map.mp hk
      rw [hfound.halved.length]
      exact hg.grove.root_lt (hkids x hx)
    refine .inr ⟨?_, ?_, ?_⟩
    · rw [hfound.nodes] at hnone
      exact hnone
    · change some g₁.classes.length = _
      rw [hg₁.classes, hfound.halved.length]
    · rw [← hlen] at hk₁ hnone
      exact (pushNode_added hg₁ rfl hk₁ hlt hnone).of_same hfound

end Bbq.Egraph
