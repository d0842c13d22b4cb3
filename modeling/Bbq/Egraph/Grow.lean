import Bbq.Egraph.Analysis
import Bbq.Egraph.Decide

/-!
# What calls leave of a graph

A hook or a matcher works on a graph through `eg_add`, `eg_merge` and finds. Where the worklist is empty
afterwards it has merged nothing, and the graph has only grown (`Grown`): the roots and the nodes that were
there are there, and what is new is in new classes.

* `Onward`: what every sequence of calls does. `Works` is such a sequence, and `Contract` is what an analysis
  promises.
* `Reachable.whole`: the invariant of the graph holds however it was made, and `Whole.congruent`: it is
  congruence where the worklist is empty.
-/

namespace Bbq.Egraph

open Bbq.Lib

variable {g g' g'' : EGraph}

/-- The graph stands for some terms with some pairs merged. -/
def Whole (g : EGraph) : Prop := ∃ ts E, Kept g ts E

/-- A graph with more nodes, each in a class of its own or of one as new. -/
structure Grown (g g' : EGraph) : Prop where
  length : g.parent.length ≤ g'.parent.length
  count : g.nodes.length ≤ g'.nodes.length
  old : ∀ x < g.parent.length, root g'.parent x = root g.parent x
  new : ∀ x, g.parent.length ≤ x → g.parent.length ≤ root g'.parent x
  nodes : ∀ i < g.nodes.length, g'.nodes[i]? = g.nodes[i]?
  fresh : ∀ (i : Nat) (n : EgNode), g.nodes.length ≤ i → g'.nodes[i]? = some n → g.parent.length ≤ n.cls

theorem root_beyond (hg : Grove g.parent) {x : Nat} (hx : g.parent.length ≤ x) : root g.parent x = x := by
  refine hg.root_of_up ?_
  by_contra hne
  exact not_lt.mpr hx (lt_of_up_ne hne)

theorem Grown.of_same (hg : Grove g.parent) (hs : Same g g') : Grown g g' where
  length := le_of_eq hs.halved.length.symm
  count := le_of_eq (by rw [hs.nodes])
  old := fun x _ => hs.halved.root x
  new := fun x hx => by
    rw [hs.halved.root, root_beyond hg hx]
    exact hx
  nodes := fun i _ => by rw [hs.nodes]
  fresh := fun i n hi hn => by
    rw [hs.nodes] at hn
    exact absurd (List.getElem?_eq_some_iff.mp hn).1 (not_lt.mpr hi)

theorem Grown.of_added (hg : Grove g.parent) {op data : Int} {kids : List Nat} (ha : Added g g' op data kids) :
    Grown g g' where
  length := by rw [ha.length]; exact Nat.le_succ _
  count := by rw [ha.count]; exact Nat.le_succ _
  old := fun x _ => ha.root x
  new := fun x hx => by
    rw [ha.root, root_beyond hg hx]
    exact hx
  nodes := ha.old
  fresh := fun i n hi hn => by
    obtain ⟨m, hm, -, -, -, hcls, -⟩ := ha.new
    have hlt := (List.getElem?_eq_some_iff.mp hn).1
    rw [ha.count] at hlt
    obtain rfl : i = g.nodes.length := by omega
    rw [hm] at hn
    obtain rfl := Option.some.inj hn
    exact le_of_eq hcls.symm

theorem Grown.trans (h : Grown g g') (h' : Grown g' g'') : Grown g g'' where
  length := h.length.trans h'.length
  count := h.count.trans h'.count
  old := fun x hx => (h'.old x (lt_of_lt_of_le hx h.length)).trans (h.old x hx)
  new := fun x hx => by
    rcases lt_or_ge x g'.parent.length with hlt | hge
    · rw [h'.old x hlt]
      exact h.new x hx
    · exact h.length.trans (h'.new x hge)
  nodes := fun i hi => (h'.nodes i (lt_of_lt_of_le hi h.count)).trans (h.nodes i hi)
  fresh := fun i n hi hn => by
    rcases lt_or_ge i g'.nodes.length with hlt | hge
    · rw [h'.nodes i hlt] at hn
      exact h.fresh i n hi hn
    · exact h.length.trans (h'.fresh i n hge hn)

/-! ## Calls -/

/-- What calls do to a graph. -/
structure Onward (g g' : EGraph) : Prop where
  whole : Whole g'
  count : g.nodes.length ≤ g'.nodes.length
  grown : g'.worklist = [] → g.worklist = [] ∧ Grown g g'

theorem Whole.stored (h : Whole g) : Stored g := by
  obtain ⟨ts, E, h⟩ := h
  exact h.stored

theorem Whole.keyed (h : Whole g) : Keyed g g.nodes.length := by
  obtain ⟨ts, E, h⟩ := h
  exact h.keyed

theorem Whole.canonical (h : Whole g) (hw : g.worklist = []) : Canonical g := by
  obtain ⟨ts, E, h⟩ := h
  exact h.canonical hw

theorem Whole.same (h : Whole g) (hs : Same g g') : Whole g' := by
  obtain ⟨ts, E, h⟩ := h
  exact ⟨ts, E, h.same hs⟩

namespace Onward

theorem of_same (h : Whole g) (hs : Same g g') : Onward g g' where
  whole := h.same hs
  count := le_of_eq (by rw [hs.nodes])
  grown := fun hw => ⟨hs.worklist ▸ hw, .of_same h.stored.grove hs⟩

theorem refl (h : Whole g) : Onward g g := of_same h (.refl h.stored.grove)

theorem trans (h : Onward g g') (h' : Onward g' g'') : Onward g g'' where
  whole := h'.whole
  count := h.count.trans h'.count
  grown := fun hw => by
    obtain ⟨hw', hgrown'⟩ := h'.grown hw
    obtain ⟨hw, hgrown⟩ := h.grown hw'
    exact ⟨hw, hgrown.trans hgrown'⟩

theorem valid (h : Onward g g') (hg : Whole g) {x : Nat} (hx : egValid g x) : egValid g' x := by
  have hcount := h.count
  rw [hg.stored.nodes, h.whole.stored.nodes] at hcount
  exact lt_of_lt_of_le hx hcount

theorem find (h : Whole g) (x : Nat) : Onward g (egFind g x).2 := of_same h (egFind_same h.stored.grove x)

theorem add (h : Whole g) (op data : Int) (kids : List Nat) : Onward g (egAdd g op data kids).2 := by
  by_cases hkids : ∀ k ∈ kids, egValid g k
  · rcases egAdd_spec h.stored h.keyed op data hkids with ⟨_, _, _, _, _, _, _, _, hs⟩ | ⟨-, -, ha⟩
    · exact of_same h hs
    · refine ⟨?_, by rw [ha.count]; exact Nat.le_succ _, fun hw => ?_⟩
      · obtain ⟨ts, E, hk⟩ := h
        exact ⟨_, _, hk.added hkids ha⟩
      · exact ⟨ha.worklist ▸ hw, .of_added h.stored.grove ha⟩
  · unfold egAdd
    rw [if_neg hkids]
    exact refl h

theorem merge (h : Whole g) (a b : Nat) : Onward g (egMerge g a b).2 := by
  by_cases hvalid : egValid g a ∧ egValid g b
  · rcases egMerge_spec h.stored hvalid.1 hvalid.2 with ⟨-, -, hs⟩ | ⟨-, -, p, q, -, hm⟩
    · exact of_same h hs
    · refine ⟨?_, le_of_eq ?_, fun hw => ?_⟩
      · obtain ⟨ts, E, hk⟩ := h
        exact ⟨_, _, hk.merge hvalid.1 hvalid.2⟩
      · rw [h.stored.nodes, hm.stored.nodes, hm.length]
      · rw [hm.worklist] at hw
        exact absurd hw (by simp)
  · unfold egMerge
    rw [if_neg hvalid]
    exact refl h

end Onward

variable {D : Type} {an : EgAnalysis D} {s s' : Analysed D}

/-- What a hook does with the graph it is handed. -/
inductive Works (an : EgAnalysis D) (s : Analysed D) : Analysed D → Prop
  | done : Works an s s
  | find {s' : Analysed D} (x : Nat) (h : Works an s s') : Works an s { s' with graph := (egFind s'.graph x).2 }
  | add {s' : Analysed D} (op data : Int) (kids : List Nat) (h : Works an s s') :
    Works an s (addNode an s' op data kids).2
  | merge {s' : Analysed D} (a b : Nat) (h : Works an s s') : Works an s (mergeFact an s' a b).2

theorem Works.onward (h : Works an s s') (hs : Whole s.graph) : Onward s.graph s'.graph := by
  induction h with
  | done => exact .refl hs
  | find x _ ih => exact ih.trans (.find ih.whole x)
  | add op data kids _ ih =>
    rw [(addNode_graph an _ op data kids).2]
    exact ih.trans (.add ih.whole op data kids)
  | merge a b _ ih =>
    rw [(mergeFact_graph an _ a b).2]
    exact ih.trans (.merge ih.whole a b)

/-- What `egraph.h` asks of an analysis. -/
structure Contract (an : EgAnalysis D) : Prop where
  join_comm : ∀ d d', an.join d d' = an.join d' d
  join_assoc : ∀ d d' d'', an.join (an.join d d') d'' = an.join d (an.join d' d'')
  join_self : ∀ d, an.join d d = d
  works : ∀ s c d, Works an s (an.modify s c d)
  /-- Doing it again adds nothing and merges nothing. -/
  again : ∀ s c d, Whole s.graph → egValid s.graph c →
    Same (an.modify s c d).graph (an.modify (an.modify s c d) c d).graph

theorem addFact_fst (s : Analysed D) (op data : Int) (kids : List Nat) :
    (addFact an s op data kids).1 = (egAdd s.graph op data kids).1 := by
  rw [← (addNode_graph an s op data kids).1]
  unfold addFact
  generalize addNode an s op data kids = r
  obtain ⟨id, s'⟩ := r
  cases id with
  | none => rfl
  | some cls =>
    dsimp only
    split
    · rfl
    · rfl

/-- `eg_add` with its `modify`: after what the graph itself does there is only what the hook does. -/
theorem addFact_onward (han : Contract an) (hs : Whole s.graph) (op data : Int) (kids : List Nat) :
    Onward (egAdd s.graph op data kids).2 (addFact an s op data kids).2.graph ∧
      ((egAdd s.graph op data kids).2.nodes.length = s.graph.nodes.length →
        (addFact an s op data kids).2 = { s with graph := (egAdd s.graph op data kids).2 }) := by
  have hadd := Onward.add hs op data kids
  have hnode : (addNode an s op data kids).2.graph.nodes.length = s.graph.nodes.length →
      (addNode an s op data kids).2 = { s with graph := (egAdd s.graph op data kids).2 } := by
    intro hcount
    unfold addNode at hcount ⊢
    generalize egAdd s.graph op data kids = r at hcount ⊢
    obtain ⟨id, graph⟩ := r
    dsimp only at hcount ⊢
    by_cases hlen : graph.nodes.length = s.graph.nodes.length
    · rw [if_pos hlen]
    · rw [if_neg hlen] at hcount
      exact absurd hcount hlen
  have hgraph := (addNode_graph an s op data kids).2
  unfold addFact
  generalize addNode an s op data kids = r at hnode hgraph ⊢
  obtain ⟨id, s'⟩ := r
  dsimp only at hnode hgraph ⊢
  rw [← hgraph] at hadd ⊢
  rw [← hgraph] at hnode
  cases id with
  | none => exact ⟨.refl hadd.whole, hnode⟩
  | some cls =>
    dsimp only
    by_cases hcount : s'.graph.nodes.length = s.graph.nodes.length
    · rw [if_pos hcount]
      exact ⟨.refl hadd.whole, hnode⟩
    · rw [if_neg hcount]
      exact ⟨(han.works s' cls _).onward hadd.whole, fun h => absurd h hcount⟩

/-! ## Rebuilding -/

theorem Whole.rebuildRound (h : Whole g) : Whole (rebuildRound g) := by
  obtain ⟨ts, E, h⟩ := h
  exact ⟨ts, E, (rebuildRound_spec h.stored h.meant).1⟩

section Restore

variable [DecidableEq D]

theorem restoreNode_same (hs : Whole s.graph) (changed : Bool) (i : Nat) :
    Same s.graph (restoreNode an (s, changed) i).1.graph := by
  unfold restoreNode
  dsimp only
  cases s.graph.nodes[i]? with
  | none => exact .refl hs.stored.grove
  | some n =>
    dsimp only
    split
    · have hfind := egFind_same hs.stored.grove n.cls
      generalize egFind s.graph n.cls = r at hfind ⊢
      obtain ⟨c, graph⟩ := r
      dsimp only at hfind ⊢
      split
      · exact hfind
      · exact hfind
    · exact .refl hs.stored.grove

theorem restoreFacts_whole (rounds : Nat) (hs : Whole s.graph) : Whole (restoreFacts an rounds s).graph := by
  have hsweep : ∀ (l : List Nat) (s : Analysed D) (changed : Bool), Whole s.graph →
      Whole (l.foldl (restoreNode an) (s, changed)).1.graph := by
    intro l
    induction l with
    | nil => exact fun s changed hs => hs
    | cons i l ih =>
      intro s changed hs
      exact ih _ _ (hs.same (restoreNode_same hs changed i))
  induction rounds generalizing s with
  | zero => exact hs
  | succ rounds ih =>
    have hnext := hsweep (List.range s.graph.nodes.length) s false hs
    unfold restoreFacts
    generalize (List.range s.graph.nodes.length).foldl (restoreNode an) (s, false) = r at hnext ⊢
    obtain ⟨s', changed⟩ := r
    dsimp only at hnext ⊢
    split
    · exact ih hnext
    · exact hnext

theorem analysisRestore_whole (han : Contract an) {fuel : Nat} (hs : Whole s.graph)
    (h : analysisRestore an fuel s = some s') : Whole s'.graph := by
  refine loop_inv (P := fun cs : Nat × Analysed D => Whole cs.2.graph) (Q := fun s => Whole s.graph)
    (fun cs cs' hcs hgo => ?_) (fun cs s'' hcs hleave => ?_) fuel _ _ (restoreFacts_whole 64 hs) h
  · obtain ⟨c, s₁⟩ := cs
    have hgo := Option.some.inj hgo
    unfold modifyClass at hgo
    dsimp only at hgo
    by_cases hc : c < s₁.graph.classes.length
    · rw [if_pos hc] at hgo
      have hfind := hcs.same (egFind_same hcs.stored.grove c)
      generalize egFind s₁.graph c = r at hgo hfind
      obtain ⟨r, graph⟩ := r
      dsimp only at hgo hfind
      obtain rfl := Sum.inl.inj hgo
      dsimp only
      split
      · exact ((han.works _ c _).onward hfind).whole
      · exact hfind
    · rw [if_neg hc] at hgo
      cases hgo
  · obtain ⟨c, s₁⟩ := cs
    have hleave := Option.some.inj hleave
    unfold modifyClass at hleave
    dsimp only at hleave
    by_cases hc : c < s₁.graph.classes.length
    · rw [if_pos hc] at hleave
      cases hleave
    · rw [if_neg hc] at hleave
      obtain rfl := Sum.inr.inj hleave
      exact hcs

/-- **Rebuilding** keeps the invariant and leaves nothing to repair. -/
theorem rebuildFacts_whole (han : Contract an) {fuel : Nat} (hs : Whole s.graph)
    (h : rebuildFacts an fuel s = some s') : Whole s'.graph ∧ s'.graph.worklist = [] := by
  refine loop_inv (P := fun s : Analysed D => Whole s.graph)
    (Q := fun s => Whole s.graph ∧ s.graph.worklist = []) (fun s₁ s₂ hs₁ hgo => ?_) (fun s₁ s₂ hs₁ hleave => ?_)
    fuel _ _ hs h
  · by_cases hw : s₁.graph.worklist = []
    · rw [if_pos hw] at hgo
      cases hgo
    · rw [if_neg hw, Option.map_eq_some_iff] at hgo
      obtain ⟨s₃, hrestore, hs₃⟩ := hgo
      obtain rfl := Sum.inl.inj hs₃
      refine analysisRestore_whole han ?_ hrestore
      rw [repairRound_graph an]
      exact hs₁.rebuildRound
  · by_cases hw : s₁.graph.worklist = []
    · rw [if_pos hw] at hleave
      obtain rfl := Sum.inr.inj (Option.some.inj hleave)
      exact ⟨hs₁, hw⟩
    · rw [if_neg hw, Option.map_eq_some_iff] at hleave
      obtain ⟨s₃, -, hs₃⟩ := hleave
      cases hs₃

/-- With nothing to repair `eg_rebuild` does nothing. -/
theorem rebuildFacts_idle {fuel : Nat} (hw : s.graph.worklist = []) (h : rebuildFacts an fuel s = some s') :
    s' = s := by
  cases fuel with
  | zero => cases h
  | succ fuel =>
    unfold rebuildFacts loop at h
    rw [if_pos hw] at h
    exact (Option.some.inj h).symm

/-! ## Every graph -/

/-- The graphs a caller can have. -/
inductive Reachable (an : EgAnalysis D) : Analysed D → Prop
  | init : Reachable an { graph := egInit, class_data := [] }
  | find {s : Analysed D} (x : Nat) (h : Reachable an s) : Reachable an { s with graph := (egFind s.graph x).2 }
  | add {s : Analysed D} (op data : Int) (kids : List Nat) (h : Reachable an s) :
    Reachable an (addFact an s op data kids).2
  | merge {s : Analysed D} (a b : Nat) (h : Reachable an s) : Reachable an (mergeFact an s a b).2
  | rebuild {s s' : Analysed D} (fuel : Nat) (h : Reachable an s) (hs : rebuildFacts an fuel s = some s') :
    Reachable an s'

theorem Reachable.whole (han : Contract an) (h : Reachable an s) : Whole s.graph := by
  induction h with
  | init => exact ⟨_, _, noHistory_ok.toKept⟩
  | find x _ ih => exact (Onward.find ih x).whole
  | add op data kids _ ih => exact (addFact_onward han ih op data kids).1.whole
  | merge a b _ ih =>
    rw [(mergeFact_graph an _ a b).2]
    exact (Onward.merge ih a b).whole
  | rebuild fuel _ hs ih => exact (rebuildFacts_whole han ih hs).1

end Restore

/-- Equal arguments imply equal applications. -/
def Congruent (g : EGraph) : Prop :=
  ∀ (i j : Nat) (n n' : EgNode), g.nodes[i]? = some n → g.nodes[j]? = some n' → n.op = n'.op → n.data = n'.data →
    n.kids.map (root g.parent) = n'.kids.map (root g.parent) → root g.parent n.cls = root g.parent n'.cls

theorem Whole.congruent (h : Whole g) (hw : g.worklist = []) : Congruent g := by
  obtain ⟨ts, E, h⟩ := h
  intro i j n n' hn hn' hop hdata hroots
  rw [(⟨h, hw⟩ : Closed g ts E).root_iff (h.stored.cls i n hn).1 (h.stored.cls j n' hn').1]
  refine (h.meant.nodes_sound i n hn).trans (.trans ?_ (h.meant.nodes_sound j n' hn').symm)
  rw [hop, hdata]
  refine .app _ ?_
  rw [List.forall₂_map_left_iff, List.forall₂_map_right_iff]
  have hkids := h.stored.kids i n hn
  have hkids' := h.stored.kids j n' hn'
  revert hkids hkids' hroots
  generalize n.kids = ks
  generalize n'.kids = ks'
  intro hroots hkids hkids'
  induction ks generalizing ks' with
  | nil =>
    cases ks' with
    | nil => exact .nil
    | cons k' ks' => cases hroots
  | cons k ks ih =>
    cases ks' with
    | nil => cases hroots
    | cons k' ks' =>
      rw [List.map_cons, List.map_cons, List.cons.injEq] at hroots
      refine .cons (h.meant.classes_sound k (hkids k List.mem_cons_self) k' (hkids' k' List.mem_cons_self) hroots.1) ?_
      exact ih ks' hroots.2 (fun x hx => hkids x (List.mem_cons_of_mem k hx))
        fun x hx => hkids' x (List.mem_cons_of_mem k' hx)

end Bbq.Egraph
