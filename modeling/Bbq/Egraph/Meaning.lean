import Bbq.Lib.Congruence
import Bbq.Egraph.Store

/-!
# Terms behind the ids

A class id stands for the term whose `eg_add` made it. `Meant g ts merged` relates a graph to these terms
and to the pairs of terms merged so far:

* what the graph takes for equal is congruent (`classes_sound`, `nodes_sound`),
* merged pairs have one root (`merged`), and for every id some live node of its class has the operator and
  the children the id was made with, up to roots (`built`).

Each operation keeps it, repair included.
-/

namespace Bbq.Egraph

open Bbq.Lib

/-- Terms over operators with their data. -/
abbrev EgTerm := Term (Int × Int)

/-- The term an id stands for. -/
def termAt (ts : List EgTerm) (id : Nat) : EgTerm := ts.getD id (.mk (0, 0) [])

theorem termAt_append {ts : List EgTerm} {k : Nat} (t : EgTerm) (hk : k < ts.length) :
    termAt (ts ++ [t]) k = termAt ts k := by
  simp only [termAt, List.getD_eq_getElem?_getD]
  rw [List.getElem?_append_left hk]

theorem termAt_last (ts : List EgTerm) (t : EgTerm) : termAt (ts ++ [t]) ts.length = t := by
  simp only [termAt, List.getD_eq_getElem?_getD]
  rw [List.getElem?_concat_length, Option.getD_some]

/-- The graph means the terms `ts`, with the pairs `E` merged. -/
structure Meant (g : EGraph) (ts : List EgTerm) (E : List (EgTerm × EgTerm)) : Prop where
  count : ts.length = g.parent.length
  classes_sound : ∀ a < g.parent.length, ∀ b < g.parent.length, root g.parent a = root g.parent b →
    Cong E (termAt ts a) (termAt ts b)
  nodes_sound : ∀ (i : Nat) (n : EgNode), g.nodes[i]? = some n →
    Cong E (termAt ts n.cls) (.mk (n.op, n.data) (n.kids.map (termAt ts)))
  merged : ∀ p ∈ E, ∃ a < g.parent.length, ∃ b < g.parent.length,
    p = (termAt ts a, termAt ts b) ∧ root g.parent a = root g.parent b
  built : ∀ c < g.parent.length, ∃ (op data : Int) (kids : List Nat),
    termAt ts c = .mk (op, data) (kids.map (termAt ts)) ∧ (∀ k ∈ kids, k < c) ∧
      ∃ (i : Nat) (n : EgNode), g.nodes[i]? = some n ∧ n.live = true ∧ n.op = op ∧ n.data = data ∧
        n.kids.map (root g.parent) = kids.map (root g.parent) ∧ n.cls = root g.parent c

variable {g g' : EGraph} {ts : List EgTerm} {E : List (EgTerm × EgTerm)}

/-- Nodes that keep what they mean. -/
theorem Meant.of_nodes (h : Meant g ts E) (hlen : g'.parent.length = g.parent.length)
    (hroot : ∀ x, root g'.parent x = root g.parent x) (f : Nat → EgNode → EgNode)
    (hnodes : ∀ i : Nat, g'.nodes[i]? = (g.nodes[i]?).map (f i))
    (hsound : ∀ (i : Nat) (n : EgNode), g.nodes[i]? = some n →
      Cong E (termAt ts (f i n).cls) (.mk ((f i n).op, (f i n).data) ((f i n).kids.map (termAt ts))))
    (hbuilt : ∀ (i : Nat) (n : EgNode), g.nodes[i]? = some n → n.live = true →
      ∃ (j : Nat) (m : EgNode), g.nodes[j]? = some m ∧ (f j m).live = true ∧ (f j m).op = n.op ∧
        (f j m).data = n.data ∧ (f j m).kids.map (root g.parent) = n.kids.map (root g.parent) ∧
          (f j m).cls = n.cls) : Meant g' ts E := by
  have hrootfun : root g'.parent = root g.parent := funext hroot
  refine ⟨by rw [hlen, h.count], ?_, fun i n hn => ?_, ?_, fun c hc => ?_⟩
  · rw [hlen, hrootfun]
    exact h.classes_sound
  · rw [hnodes, Option.map_eq_some_iff] at hn
    obtain ⟨m, hm, rfl⟩ := hn
    exact hsound i m hm
  · rw [hlen, hrootfun]
    exact h.merged
  · rw [hlen] at hc
    obtain ⟨op, data, kids, hterm, hkids, i, n, hn, hlive, rfl, rfl, hroots, hcls⟩ := h.built c hc
    obtain ⟨j, m, hm, hlive', hop, hdata, hroots', hcls'⟩ := hbuilt i n hn hlive
    refine ⟨_, _, kids, hterm, hkids, j, f j m, ?_, hlive', hop, hdata, ?_, ?_⟩
    · rw [hnodes, hm, Option.map_some]
    · rw [hrootfun, hroots', hroots]
    · rw [hrootfun, hcls', hcls]

theorem Meant.same (h : Meant g ts E) (hs : Same g g') : Meant g' ts E := by
  refine h.of_nodes hs.halved.length hs.halved.root (fun _ n => n) (fun i => ?_) h.nodes_sound
    fun i n hn hlive => ⟨i, n, hn, hlive, rfl, rfl, rfl, rfl⟩
  rw [hs.nodes, Option.map_id']

/-- Two classes become one that are congruent, once further pairs `E'` are merged. -/
theorem Meant.absorb (h : Meant g ts E) (hg : Stored g) {p q : Nat} (hm : Merged g g' p q)
    {E' : List (EgTerm × EgTerm)} (hE : E ⊆ E') (hcong : Cong E' (termAt ts p) (termAt ts q))
    (hnew : ∀ pair ∈ E', pair ∈ E ∨ ∃ a < g.parent.length, ∃ b < g.parent.length,
      pair = (termAt ts a, termAt ts b) ∧ root g'.parent a = root g'.parent b) : Meant g' ts E' := by
  have hto : ∀ x < g.parent.length, Cong E' (termAt ts x) (termAt ts (root g'.parent x)) := by
    intro x hx
    rw [hm.root]
    have hself : Cong E' (termAt ts x) (termAt ts (root g.parent x)) :=
      (h.classes_sound x hx _ (hg.grove.root_lt hx) (hg.grove.root_root x).symm).mono hE
    split
    · next hroot =>
      rw [hroot] at hself
      exact hself.trans hcong.symm
    · exact hself
  refine ⟨by rw [hm.length, h.count], fun a ha b hb hab => ?_, fun i n hn => ?_, fun pair hpair => ?_, fun c hc => ?_⟩
  · rw [hm.length] at ha hb
    have hright := (hto b hb).symm
    rw [← hab] at hright
    exact (hto a ha).trans hright
  · rw [hm.nodes, Option.map_eq_some_iff] at hn
    obtain ⟨m, hmn, rfl⟩ := hn
    have hsound := (h.nodes_sound i m hmn).mono hE
    split
    · next hcls =>
      rw [hcls] at hsound
      exact hcong.trans hsound
    · exact hsound
  · rw [hm.length]
    rcases hnew pair hpair with hpair | hpair
    · obtain ⟨a, ha, b, hb, hpair, hroots⟩ := h.merged pair hpair
      exact ⟨a, ha, b, hb, hpair, by rw [hm.root, hm.root, hroots]⟩
    · exact hpair
  · rw [hm.length] at hc
    obtain ⟨op, data, kids, hterm, hkids, i, n, hn, hlive, hop, hdata, hroots, hcls⟩ := h.built c hc
    have hnode := hm.nodes i
    rw [hn, Option.map_some] at hnode
    have hmap : ∀ l : List Nat, l.map (root g'.parent) = (l.map (root g.parent)).map fun r => if r = q then p else r := by
      intro l
      rw [List.map_map]
      exact List.map_congr_left fun x _ => hm.root x
    refine ⟨op, data, kids, hterm, hkids, i, _, hnode, ?_, ?_, ?_, ?_, ?_⟩
    · split
      · exact hlive
      · exact hlive
    · split
      · exact hop
      · exact hop
    · split
      · exact hdata
      · exact hdata
    · have hkidsEq : (if n.cls = q then { n with cls := p } else n).kids = n.kids := by
        split
        · rfl
        · rfl
      rw [hkidsEq, hmap, hmap, hroots]
    · rw [hm.root, ← hcls]
      split
      · rfl
      · rfl

theorem Meant.mono (h : Meant g ts E) {p : EgTerm × EgTerm} (hp : ∃ a < g.parent.length, ∃ b < g.parent.length,
    p = (termAt ts a, termAt ts b) ∧ root g.parent a = root g.parent b) : Meant g ts (E ++ [p]) where
  count := h.count
  classes_sound := fun a ha b hb hab => (h.classes_sound a ha b hb hab).mono (List.subset_append_left _ _)
  nodes_sound := fun i n hn => (h.nodes_sound i n hn).mono (List.subset_append_left _ _)
  merged := fun pair hpair => by
    rcases List.mem_append.mp hpair with hpair | hpair
    · exact h.merged pair hpair
    · obtain rfl := List.mem_singleton.mp hpair
      exact hp
  built := h.built

/-- **A merge** asserts the pair of the terms of its ids. -/
theorem Meant.merge (h : Meant g ts E) (hg : Stored g) {a b : Nat} (ha : egValid g a) (hb : egValid g b) :
    Meant (egMerge g a b).2 ts (E ++ [(termAt ts a, termAt ts b)]) := by
  rcases egMerge_spec hg ha hb with ⟨hroots, -, hs⟩ | ⟨-, -, p, q, hchoice, hm⟩
  · exact (h.mono ⟨a, ha, b, hb, rfl, hroots⟩).same hs
  · have hweak : E ⊆ E ++ [(termAt ts a, termAt ts b)] := List.subset_append_left _ _
    have hself : ∀ x < g.parent.length,
        Cong (E ++ [(termAt ts a, termAt ts b)]) (termAt ts (root g.parent x)) (termAt ts x) := fun x hx =>
      (h.classes_sound _ (hg.grove.root_lt hx) x hx (hg.grove.root_root x)).mono hweak
    have hasserted : Cong (E ++ [(termAt ts a, termAt ts b)]) (termAt ts a) (termAt ts b) :=
      .base (List.mem_append_right _ List.mem_cons_self)
    have hcong : Cong (E ++ [(termAt ts a, termAt ts b)]) (termAt ts p) (termAt ts q) := by
      rcases hchoice with ⟨rfl, rfl⟩ | ⟨rfl, rfl⟩
      · exact (hself a ha).trans (hasserted.trans (hself b hb).symm)
      · exact (hself b hb).trans (hasserted.symm.trans (hself a ha).symm)
    have hjoined : root (egMerge g a b).2.parent a = root (egMerge g a b).2.parent b := by
      rw [hm.root, hm.root]
      rcases hchoice with ⟨rfl, rfl⟩ | ⟨rfl, rfl⟩
      · rw [if_pos rfl]
        split
        · rfl
        · rfl
      · rw [if_pos rfl]
        split
        · rfl
        · rfl
    refine h.absorb hg hm hweak hcong fun pair hpair => ?_
    rcases List.mem_append.mp hpair with hpair | hpair
    · exact .inl hpair
    · obtain rfl := List.mem_singleton.mp hpair
      exact .inr ⟨a, ha, b, hb, rfl, hjoined⟩

/-- **Adding** makes the new id stand for the term. -/
theorem Meant.added (h : Meant g ts E) (hg : Stored g) {op data : Int} {kids : List Nat}
    (hkids : ∀ k ∈ kids, egValid g k) (ha : Added g g' op data (kids.map (root g.parent))) :
    Meant g' (ts ++ [.mk (op, data) (kids.map (termAt ts))]) E := by
  have hold : ∀ k < g.parent.length, termAt (ts ++ [.mk (op, data) (kids.map (termAt ts))]) k = termAt ts k := by
    intro k hk
    exact termAt_append _ (by rw [h.count]; exact hk)
  have hmap : ∀ l : List Nat, (∀ k ∈ l, k < g.parent.length) →
      l.map (termAt (ts ++ [.mk (op, data) (kids.map (termAt ts))])) = l.map (termAt ts) := fun l hl =>
    List.map_congr_left fun k hk => hold k (hl k hk)
  have hlast : termAt (ts ++ [.mk (op, data) (kids.map (termAt ts))]) g.parent.length =
      .mk (op, data) (kids.map (termAt ts)) := by
    rw [← h.count, termAt_last]
  have hself : root g'.parent g.parent.length = g.parent.length := by
    rw [ha.root]
    refine hg.grove.root_of_up ?_
    by_contra hne
    exact lt_irrefl _ (lt_of_up_ne hne)
  have hroot : ∀ x < g.parent.length, root g'.parent x < g.parent.length := fun x hx => by
    rw [ha.root]
    exact hg.grove.root_lt hx
  obtain ⟨new, hnew, hop, hdata, hnewKids, hcls, hlive⟩ := ha.new
  have hlen : g.nodes.length = g.parent.length := hg.nodes
  refine ⟨?_, fun a ha' b hb' hab => ?_, fun i n hn => ?_, fun pair hpair => ?_, fun c hc => ?_⟩
  · rw [List.length_append, List.length_singleton, h.count, ha.length]
  · rw [ha.length] at ha' hb'
    rcases Nat.lt_succ_iff_lt_or_eq.mp ha' with ha' | rfl
    · rcases Nat.lt_succ_iff_lt_or_eq.mp hb' with hb' | rfl
      · rw [hold a ha', hold b hb']
        rw [ha.root, ha.root] at hab
        exact h.classes_sound a ha' b hb' hab
      · have := hroot a ha'
        omega
    · rcases Nat.lt_succ_iff_lt_or_eq.mp hb' with hb' | rfl
      · have := hroot b hb'
        omega
      · exact .refl _
  · have hi : i < g.nodes.length + 1 := by
      rw [← ha.count]
      exact (List.getElem?_eq_some_iff.mp hn).1
    rcases Nat.lt_succ_iff_lt_or_eq.mp hi with hi | rfl
    · rw [ha.old i hi] at hn
      rw [hold _ (hg.cls i n hn).1, hmap _ (hg.kids i n hn)]
      exact h.nodes_sound i n hn
    · rw [hnew] at hn
      obtain rfl := Option.some.inj hn
      have hrootsLt : ∀ k ∈ kids.map (root g.parent), k < g.parent.length := by
        intro k hk
        obtain ⟨x, hx, rfl⟩ := List.mem_map.mp hk
        exact hg.grove.root_lt (hkids x hx)
      rw [hcls, hlast, hop, hdata, hnewKids, hmap _ hrootsLt, List.map_map]
      refine .app _ ?_
      rw [List.forall₂_map_left_iff, List.forall₂_map_right_iff, List.forall₂_same]
      intro x hx
      exact h.classes_sound x (hkids x hx) _ (hg.grove.root_lt (hkids x hx)) (hg.grove.root_root x).symm
  · obtain ⟨a, ha', b, hb', rfl, hroots⟩ := h.merged pair hpair
    rw [ha.length]
    refine ⟨a, Nat.lt_succ_of_lt ha', b, Nat.lt_succ_of_lt hb', ?_, ?_⟩
    · rw [hold a ha', hold b hb']
    · rw [ha.root, ha.root, hroots]
  · rw [ha.length] at hc
    have hrootfun : root g'.parent = root g.parent := funext ha.root
    rcases Nat.lt_succ_iff_lt_or_eq.mp hc with hc | rfl
    · obtain ⟨op', data', kids', hterm, hkids', i, n, hn, hrest⟩ := h.built c hc
      refine ⟨op', data', kids', ?_, hkids', i, n, ?_, ?_⟩
      · rw [hold c hc, hterm, hmap _ fun k hk => lt_trans (hkids' k hk) hc]
      · rw [ha.old i (List.getElem?_eq_some_iff.mp hn).1]
        exact hn
      · rw [hrootfun]
        exact hrest
    · refine ⟨op, data, kids, ?_, hkids, g.nodes.length, new, hnew, hlive, hop, hdata, ?_, ?_⟩
      · rw [hlast, hmap _ hkids]
      · rw [hrootfun, hnewKids, List.map_map]
        exact List.map_congr_left fun x _ => hg.grove.root_root x
      · rw [hself, hcls]

end Bbq.Egraph
