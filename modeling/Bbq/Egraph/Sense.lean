import Bbq.Egraph.Rewriter
import Bbq.Egraph.Retain

/-!
# Graphs that make sense

`Language` says what the operators, the data, the facts and the auxiliaries of a compiler stand for. A graph makes sense
(`Sense`) under values of its ids when each class has one value, each node computes that of its class, and each fact
holds of it.

* `Advance`: to a state in which the ids that were there have the values they had. `Later`: what is more, the classes
  represent what they did. `Goes`: and no node was retired.
* **`addNode_goes`**, **`addFact_goes`**: a node that is added gets its value.
* **`mergeFact_goes`**: merging what has one value changes no value.

What is asked of an analysis and of the auxiliaries is `Language.Describes`.
-/

namespace Bbq.Egraph

open Bbq.Lib

variable {V D : Type}

/-- What operators, data, facts and auxiliaries stand for. -/
structure Language (V D : Type) where
  /-- The value of a node: of its operator, its data, and the values of its children. -/
  meaning : Int → Int → List V → V
  /-- The fact holds of the value. -/
  holds : D → V → Prop
  helper : String → List V → V

variable (L : Language V D)

/-- A node of the value may have the data. -/
def Language.Carries (v : V) (data : Int) : Prop := ∃ op vs, L.meaning op data vs = v

mutual

/-- The value of a term. -/
def Language.value : EgTerm → V
  | .mk label ts => L.meaning label.1 label.2 (Language.values ts)

def Language.values : List EgTerm → List V
  | [] => []
  | t :: ts => Language.value t :: Language.values ts

end

theorem Language.values_eq (ts : List EgTerm) : L.values ts = ts.map L.value := by
  induction ts with
  | nil => rfl
  | cons t ts ih =>
    unfold values
    rw [ih, List.map_cons]

theorem Language.value_eq (label : Int × Int) (ts : List EgTerm) :
    L.value (.mk label ts) = L.meaning label.1 label.2 (ts.map L.value) := by
  unfold value
  rw [L.values_eq]

variable {L} in
/-- Congruent terms have one value, if the pairs do. -/
theorem value_of_cong {E : List (EgTerm × EgTerm)} (hE : ∀ p ∈ E, L.value p.1 = L.value p.2) {t u : EgTerm}
    (h : Cong E t u) : L.value t = L.value u :=
  h.respects (fun label ts us hkids => by rw [L.value_eq, L.value_eq, hkids]) hE

/-! ## Values of ids -/

/-- The ids of a graph have values: one for each class, which its nodes compute. -/
structure Valued (ν : Nat → V) (g : EGraph) : Prop where
  whole : Whole g
  one : ∀ a < g.parent.length, ∀ b < g.parent.length, root g.parent a = root g.parent b → ν a = ν b
  node : ∀ (i : Nat) (n : EgNode), g.nodes[i]? = some n → ν n.cls = L.meaning n.op n.data (n.kids.map ν)

variable {L} {ν ν' : Nat → V} {g g' : EGraph}

theorem Valued.root (h : Valued L ν g) {c : Nat} (hc : c < g.parent.length) : ν (Egraph.root g.parent c) = ν c :=
  h.one _ (h.whole.stored.grove.root_lt hc) c hc (h.whole.stored.grove.root_root c)

theorem Valued.roots (h : Valued L ν g) {kids : List Nat} (hkids : ∀ k ∈ kids, k < g.parent.length) :
    (kids.map (Egraph.root g.parent)).map ν = kids.map ν := by
  rw [List.map_map]
  exact List.map_congr_left fun k hk => h.root (hkids k hk)

/-- The value of an id is that of the term it stands for. -/
theorem Valued.term (h : Valued L ν g) {ts : List EgTerm} {E : List (EgTerm × EgTerm)} (hm : Meant g ts E) :
    ∀ c < g.parent.length, L.value (termAt ts c) = ν c := by
  intro c
  induction c using Nat.strong_induction_on with
  | _ c ih =>
    intro hc
    obtain ⟨op, data, kids, hterm, hless, i, n, hn, -, rfl, rfl, hroots, hcls⟩ := hm.built c hc
    have hkids : ∀ k ∈ kids, k < g.parent.length := fun k hk => (hless k hk).trans hc
    have hvalues : (kids.map (termAt ts)).map L.value = n.kids.map ν := by
      rw [← h.roots (h.whole.stored.kids i n hn), hroots, h.roots hkids, List.map_map]
      exact List.map_congr_left fun k hk => ih k (hless k hk) (hkids k hk)
    rw [hterm, L.value_eq, hvalues, ← h.node i n hn, hcls, h.root hc]

theorem Valued.pairs (h : Valued L ν g) {ts : List EgTerm} {E : List (EgTerm × EgTerm)} (hm : Meant g ts E) :
    ∀ p ∈ E, L.value p.1 = L.value p.2 := by
  intro p hp
  obtain ⟨a, ha, b, hb, rfl, hroots⟩ := hm.merged p hp
  rw [h.term hm a ha, h.term hm b hb]
  exact h.one a ha b hb hroots

/-- What is taken for one class after more merges, with no other terms and pairs, has one value. -/
theorem one_of_meant {ts : List EgTerm} {E : List (EgTerm × EgTerm)} (hm : Meant g' ts E)
    (hvalue : ∀ c < g'.parent.length, L.value (termAt ts c) = ν c) (hE : ∀ p ∈ E, L.value p.1 = L.value p.2) :
    ∀ a < g'.parent.length, ∀ b < g'.parent.length, Egraph.root g'.parent a = Egraph.root g'.parent b → ν a = ν b := by
  intro a ha b hb hroots
  rw [← hvalue a ha, ← hvalue b hb]
  exact value_of_cong hE (hm.classes_sound a ha b hb hroots)

theorem Valued.same (h : Valued L ν g) (hs : Same g g') : Valued L ν g' where
  whole := h.whole.same hs
  one := by
    rw [hs.halved.length, show Egraph.root g'.parent = Egraph.root g.parent from funext hs.halved.root]
    exact h.one
  node := by
    rw [hs.nodes]
    exact h.node

theorem Valued.congr (h : Valued L ν g) (hsame : ∀ c < g.parent.length, ν' c = ν c) : Valued L ν' g where
  whole := h.whole
  one := fun a ha b hb hroots => by
    rw [hsame a ha, hsame b hb]
    exact h.one a ha b hb hroots
  node := fun i n hn => by
    have hkids : n.kids.map ν' = n.kids.map ν :=
      List.map_congr_left fun k hk => hsame k (h.whole.stored.kids i n hn k hk)
    rw [hsame _ (h.whole.stored.cls i n hn).1, hkids]
    exact h.node i n hn

/-- **A node that is added** gets its value. -/
theorem Valued.added (h : Valued L ν g) {op data : Int} {kids : List Nat} (hkids : ∀ k ∈ kids, k < g.parent.length)
    (hw : Whole g') (ha : Added g g' op data (kids.map (Egraph.root g.parent))) :
    Valued L (Function.update ν g.parent.length (L.meaning op data (kids.map ν))) g' := by
  have hold : ∀ c < g.parent.length, Function.update ν g.parent.length (L.meaning op data (kids.map ν)) c = ν c :=
    fun c hc => Function.update_of_ne (Nat.ne_of_lt hc) _ _
  have hcongr := h.congr hold
  have hbefore : ∀ c < g'.parent.length, c < g.parent.length ∨ c = g.parent.length := fun c hc => by
    rw [ha.length] at hc
    omega
  have hroot : Egraph.root g.parent g.parent.length = g.parent.length := root_beyond h.whole.stored.grove (le_refl _)
  refine ⟨hw, fun a hal b hbl hroots => ?_, fun i n hn => ?_⟩
  · rw [ha.root, ha.root] at hroots
    rcases hbefore a hal with hal | rfl
    · rcases hbefore b hbl with hbl | rfl
      · exact hcongr.one a hal b hbl hroots
      · have hlt := h.whole.stored.grove.root_lt hal
        rw [hroots, hroot] at hlt
        exact absurd hlt (lt_irrefl _)
    · rcases hbefore b hbl with hbl | rfl
      · have hlt := h.whole.stored.grove.root_lt hbl
        rw [← hroots, hroot] at hlt
        exact absurd hlt (lt_irrefl _)
      · rfl
  · obtain ⟨m, hm, rfl, rfl, hmkids, hcls, -⟩ := ha.new
    have hi := (List.getElem?_eq_some_iff.mp hn).1
    rw [ha.count] at hi
    rcases Nat.lt_succ_iff_lt_or_eq.mp hi with hi | rfl
    · rw [ha.old i hi] at hn
      exact hcongr.node i n hn
    · rw [hm] at hn
      obtain rfl := Option.some.inj hn
      have hroots : ∀ k ∈ kids.map (Egraph.root g.parent), k < g.parent.length := by
        intro k hk
        obtain ⟨x, hx, rfl⟩ := List.mem_map.mp hk
        exact h.whole.stored.grove.root_lt (hkids x hx)
      rw [hcls, Function.update_self, hmkids, List.map_congr_left fun k hk => hold k (hroots k hk), h.roots hkids]

/-- **Classes of one value may be merged.** -/
theorem Valued.merge (h : Valued L ν g) {a b : Nat} (ha : a < g.parent.length) (hb : b < g.parent.length)
    (hab : ν a = ν b) : Valued L ν (egMerge g a b).2 := by
  rcases egMerge_spec h.whole.stored ha hb with ⟨-, -, hs⟩ | ⟨-, -, p, q, hpq, hm⟩
  · exact h.same hs
  · have hpval : ν p = ν q := by
      rcases hpq with ⟨rfl, rfl⟩ | ⟨rfl, rfl⟩
      · rw [h.root ha, h.root hb, hab]
      · rw [h.root ha, h.root hb, hab]
    -- the value of an id is that of its new root
    have hto : ∀ x < g.parent.length, ν x = ν (Egraph.root (egMerge g a b).2.parent x) := by
      intro x hx
      rw [hm.root]
      split
      · next hq => rw [← h.root hx, hq, hpval]
      · rw [h.root hx]
    have hnode : ∀ (i : Nat) (n : EgNode), (egMerge g a b).2.nodes[i]? = some n → ∃ n', g.nodes[i]? = some n' ∧
        n.op = n'.op ∧ n.data = n'.data ∧ n.kids = n'.kids ∧ ν n.cls = ν n'.cls := by
      intro i n hn
      rw [hm.nodes, Option.map_eq_some_iff] at hn
      obtain ⟨n', hn', rfl⟩ := hn
      refine ⟨n', hn', ?_⟩
      split
      · next hq => exact ⟨rfl, rfl, rfl, by rw [hq, hpval]⟩
      · exact ⟨rfl, rfl, rfl, rfl⟩
    refine ⟨(Onward.merge h.whole a b).whole, fun x hx y hy hroots => ?_, fun i n hn => ?_⟩
    · rw [hm.length] at hx hy
      rw [hto x hx, hto y hy, hroots]
    · obtain ⟨n', hn', hop, hdata, hkids, hcls⟩ := hnode i n hn
      rw [hcls, hop, hdata, hkids]
      exact h.node i n' hn'

/-! ## Live nodes only come in -/

/-- No class has fewer live nodes than it had. -/
structure Gathers (g g' : EGraph) : Prop where
  length : g.parent.length ≤ g'.parent.length
  count : ∀ c < g.parent.length, egClassNodes g (some c) ≤ egClassNodes g' (some c)

theorem mem_liveNodes (hg : Whole g) {c i : Nat} : i ∈ liveNodes g (some c) ↔ egValid g c ∧
    ∃ n : EgNode, g.nodes[i]? = some n ∧ n.live = true ∧ n.cls = root g.parent c := by
  unfold liveNodes
  dsimp only
  by_cases hc : egValid g c
  · rw [if_pos hc, List.mem_filter, hg.stored.listed]
    constructor
    · rintro ⟨⟨n, hn, hcls⟩, hlive⟩
      rw [hn, Option.map_some, Option.getD_some] at hlive
      exact ⟨hc, n, hn, hlive, hcls⟩
    · rintro ⟨-, n, hn, hlive, hcls⟩
      refine ⟨⟨n, hn, hcls⟩, ?_⟩
      rw [hn, Option.map_some, Option.getD_some]
      exact hlive
  · rw [if_neg hc]
    exact ⟨fun h => absurd h List.not_mem_nil, fun h => absurd h.1 hc⟩

theorem nodup_liveNodes (hg : Whole g) (c : Nat) : (liveNodes g (some c)).Nodup := by
  unfold liveNodes
  dsimp only
  split
  · exact (hg.stored.once _).filter _
  · exact List.nodup_nil

namespace Gathers

/-- Nodes stay live, and in their classes. -/
theorem of_nodes (hg : Whole g) (hg' : Whole g') (hlen : g.parent.length ≤ g'.parent.length)
    (h : ∀ (i : Nat) (n : EgNode), g.nodes[i]? = some n → n.live = true → ∃ n', g'.nodes[i]? = some n' ∧
      n'.live = true ∧ ∀ c < g.parent.length, n.cls = Egraph.root g.parent c → n'.cls = Egraph.root g'.parent c) :
    Gathers g g' where
  length := hlen
  count := fun c hc => by
    refine (List.subperm_of_subset (nodup_liveNodes hg c) fun i hi => ?_).length_le
    obtain ⟨-, n, hn, hlive, hcls⟩ := (mem_liveNodes hg).mp hi
    obtain ⟨n', hn', hlive', hcls'⟩ := h i n hn hlive
    exact (mem_liveNodes hg').mpr ⟨lt_of_lt_of_le hc hlen, n', hn', hlive', hcls' c hc hcls⟩

theorem refl (g : EGraph) : Gathers g g := ⟨le_refl _, fun _ _ => le_refl _⟩

theorem trans {g'' : EGraph} (h : Gathers g g') (h' : Gathers g' g'') : Gathers g g'' where
  length := h.length.trans h'.length
  count := fun c hc => (h.count c hc).trans (h'.count c (lt_of_lt_of_le hc h.length))

theorem of_same (hg : Whole g) (hs : Same g g') : Gathers g g' := by
  refine of_nodes hg (hg.same hs) (le_of_eq hs.halved.length.symm) fun i n hn hlive => ?_
  refine ⟨n, by rw [hs.nodes, hn], hlive, fun c _ hcls => ?_⟩
  rw [hs.halved.root, hcls]

theorem of_added (hg : Whole g) (hg' : Whole g') {op data : Int} {kids : List Nat} (ha : Added g g' op data kids) :
    Gathers g g' := by
  refine of_nodes hg hg' (by rw [ha.length]; exact Nat.le_succ _) fun i n hn hlive => ?_
  refine ⟨n, by rw [ha.old i (List.getElem?_eq_some_iff.mp hn).1, hn], hlive, fun c _ hcls => ?_⟩
  rw [ha.root, hcls]

theorem add (hg : Whole g) (op data : Int) (kids : List Nat) : Gathers g (egAdd g op data kids).2 := by
  by_cases hkids : ∀ k ∈ kids, egValid g k
  · rcases egAdd_spec hg.stored hg.keyed op data hkids with ⟨_, _, _, _, _, _, _, _, hs⟩ | ⟨-, -, ha⟩
    · exact of_same hg hs
    · exact of_added hg (Onward.add hg op data kids).whole ha
  · unfold egAdd
    rw [if_neg hkids]
    exact refl g

theorem merge (hg : Whole g) (a b : Nat) : Gathers g (egMerge g a b).2 := by
  by_cases hvalid : egValid g a ∧ egValid g b
  · rcases egMerge_spec hg.stored hvalid.1 hvalid.2 with ⟨-, -, hs⟩ | ⟨-, -, p, q, -, hm⟩
    · exact of_same hg hs
    · refine of_nodes hg (Onward.merge hg a b).whole (le_of_eq hm.length.symm) fun i n hn hlive => ?_
      refine ⟨_, by rw [hm.nodes, hn, Option.map_some], ?_, fun c _ hcls => ?_⟩
      · split
        · exact hlive
        · exact hlive
      · rw [hm.root, ← hcls]
        split
        · rfl
        · rfl
  · unfold egMerge
    rw [if_neg hvalid]
    exact refl g

end Gathers

theorem Works.gathers {an : EgAnalysis D} {s s' : Analysed D} (h : Works an s s') (hs : Whole s.graph) :
    Gathers s.graph s'.graph := by
  induction h with
  | done => exact .refl _
  | find x h ih => exact ih.trans (.of_same (h.onward hs).whole (egFind_same (h.onward hs).whole.stored.grove x))
  | add op data kids h ih =>
    rw [(addNode_graph an _ op data kids).2]
    exact ih.trans (.add (h.onward hs).whole op data kids)
  | merge a b h ih =>
    rw [(mergeFact_graph an _ a b).2]
    exact ih.trans (.merge (h.onward hs).whole a b)

/-! ## Facts -/

/-- **A graph that makes sense.** -/
structure Sense (L : Language V D) (an : EgAnalysis D) (ν : Nat → V) (s : Analysed D) : Prop where
  valued : Valued L ν s.graph
  slots : s.class_data.length = s.graph.parent.length
  facts : ∀ c < s.graph.parent.length, L.holds (factAt an s c) (ν c)

/-- The id is there, and has the value. -/
def Has (ν : Nat → V) (s : Analysed D) (id : Nat) (v : V) : Prop := id < s.graph.parent.length ∧ ν id = v

/-- To a state in which the ids that were there have the values they had. -/
structure Advance (L : Language V D) (an : EgAnalysis D) (ν : Nat → V) (s : Analysed D) (ν' : Nat → V)
    (s' : Analysed D) : Prop where
  sense : Sense L an ν' s'
  length : s.graph.parent.length ≤ s'.graph.parent.length
  kept : ∀ c < s.graph.parent.length, ν' c = ν c

/-- What a caller may do to a graph that makes sense. -/
structure Later (L : Language V D) (an : EgAnalysis D) (ν : Nat → V) (s : Analysed D) (ν' : Nat → V)
    (s' : Analysed D) : Prop extends Advance L an ν s ν' s' where
  before : Sense L an ν s
  retains : Retains s.graph s'.graph

/-- What it does without `eg_rebuild`. -/
structure Goes (L : Language V D) (an : EgAnalysis D) (ν : Nat → V) (s : Analysed D) (ν' : Nat → V)
    (s' : Analysed D) : Prop extends Later L an ν s ν' s' where
  gathers : Gathers s.graph s'.graph

variable {an : EgAnalysis D} {s s' s'' : Analysed D} {ν'' : Nat → V}

theorem Advance.refl (h : Sense L an ν s) : Advance L an ν s ν s := ⟨h, le_refl _, fun _ _ => rfl⟩

theorem Advance.trans (h : Advance L an ν s ν' s') (h' : Advance L an ν' s' ν'' s'') : Advance L an ν s ν'' s'' where
  sense := h'.sense
  length := h.length.trans h'.length
  kept := fun c hc => (h'.kept c (lt_of_lt_of_le hc h.length)).trans (h.kept c hc)

theorem Later.refl (h : Sense L an ν s) : Later L an ν s ν s := ⟨.refl h, h, .refl _⟩

theorem Later.trans (h : Later L an ν s ν' s') (h' : Later L an ν' s' ν'' s'') : Later L an ν s ν'' s'' :=
  ⟨h.toAdvance.trans h'.toAdvance, h.before,
    h.retains.trans h.before.valued.whole.stored h.sense.valued.whole.stored h'.retains⟩

theorem Goes.refl (h : Sense L an ν s) : Goes L an ν s ν s := ⟨.refl h, .refl _⟩

theorem Goes.trans (h : Goes L an ν s ν' s') (h' : Goes L an ν' s' ν'' s'') : Goes L an ν s ν'' s'' :=
  ⟨h.toLater.trans h'.toLater, h.gathers.trans h'.gathers⟩

theorem Has.advance {id : Nat} {v : V} (h : Has ν s id v) (ha : Advance L an ν s ν' s') : Has ν' s' id v :=
  ⟨lt_of_lt_of_le h.1 ha.length, (ha.kept id h.1).trans h.2⟩

theorem Sense.same (h : Sense L an ν s) {graph : EGraph} (hs : Same s.graph graph) :
    Sense L an ν { s with graph := graph } where
  valued := h.valued.same hs
  slots := h.slots.trans hs.halved.length.symm
  facts := fun c hc => h.facts c (by rw [← hs.halved.length]; exact hc)

theorem Goes.of_same (h : Sense L an ν s) {graph : EGraph} (hs : Same s.graph graph) :
    Goes L an ν s ν { s with graph := graph } :=
  ⟨⟨⟨h.same hs, le_of_eq hs.halved.length.symm, fun _ _ => rfl⟩, h, .of_same hs⟩, .of_same h.valued.whole hs⟩

/-- What the facts of an analysis say is so. -/
structure Language.Reads (L : Language V D) (an : EgAnalysis D) : Prop where
  join : ∀ {v : V} {d d' : D}, L.holds d v → L.holds d' v → L.holds (an.join d d') v
  make : ∀ {ν : Nat → V} {s : Analysed D} (op data : Int) {kids : List Nat}, Valued L ν s.graph →
    (∀ k ∈ kids, k < s.graph.parent.length ∧ L.holds (factAt an s (Egraph.root s.graph.parent k)) (ν k)) →
      L.holds (an.make s op data kids) (L.meaning op data (kids.map ν))

/-! ## Calls -/

/-- **A node that is added** gets its value and its fact. -/
theorem addNode_goes (hr : L.Reads an) (h : Sense L an ν s) (op data : Int) {kids : List Nat}
    (hkids : ∀ k ∈ kids, k < s.graph.parent.length) :
    ∃ ν' id, (addNode an s op data kids).1 = some id ∧ Goes L an ν s ν' (addNode an s op data kids).2 ∧
      Has ν' (addNode an s op data kids).2 id (L.meaning op data (kids.map ν)) ∧
        Egraph.root (addNode an s op data kids).2.graph.parent id = id := by
  have hg := h.valued.whole
  have honward := Onward.add hg op data kids
  have hroots := (findAll_spec hg.stored.grove kids).1
  have hgathers := Gathers.add hg op data kids
  have hretains := Retains.add hg op data kids
  unfold addNode
  rcases egAdd_spec hg.stored hg.keyed op data hkids with ⟨i, n, hn, -, rfl, rfl, hnkids, hret, hs⟩ | ⟨-, hret, ha⟩
  · generalize egAdd s.graph n.op n.data kids = r at hret hs ⊢
    obtain ⟨id, graph⟩ := r
    dsimp only at hret hs ⊢
    subst hret
    rw [if_pos (by rw [hs.nodes])]
    have hlt := (hg.stored.cls i n hn).1
    refine ⟨ν, n.cls, rfl, .of_same h hs, ⟨?_, ?_⟩, ?_⟩
    · dsimp only
      rw [hs.halved.length]
      exact hlt
    · rw [h.valued.node i n hn, hnkids, h.valued.roots hkids]
    · dsimp only
      rw [hs.halved.root, hg.stored.root_cls hn]
  · generalize egAdd s.graph op data kids = r at honward hgathers hretains hret ha ⊢
    obtain ⟨id, graph⟩ := r
    dsimp only at honward hgathers hretains hret ha ⊢
    subst hret
    have hcount : graph.nodes.length ≠ s.graph.nodes.length := by
      rw [ha.count]
      exact Nat.succ_ne_self _
    rw [if_neg hcount, hroots]
    have hvalued := h.valued.added hkids honward.whole ha
    set ν' := Function.update ν s.graph.parent.length (L.meaning op data (kids.map ν)) with hν'
    have hold : ∀ c < s.graph.parent.length, ν' c = ν c := fun c hc => Function.update_of_ne (Nat.ne_of_lt hc) _ _
    have hnew : ν' s.graph.parent.length = L.meaning op data (kids.map ν) := Function.update_self ..
    have hslots := h.slots
    -- the slots that were there
    have hfact : ∀ (d : D) (c : Nat), c < s.graph.parent.length →
        (s.class_data ++ [d]).getD c an.zero = factAt an s c := fun d c hc => by
      unfold factAt
      rw [List.getD_append _ _ _ _ (by rw [hslots]; exact hc)]
    have hrootlt : ∀ k ∈ kids, Egraph.root s.graph.parent k < s.graph.parent.length := fun k hk =>
      hg.stored.grove.root_lt (hkids k hk)
    have hmake : L.holds (an.make { graph := graph, class_data := s.class_data ++ [an.zero] } op data
        (kids.map (Egraph.root s.graph.parent))) (L.meaning op data (kids.map ν)) := by
      have hvalues : (kids.map (Egraph.root s.graph.parent)).map ν' = kids.map ν := by
        rw [List.map_map]
        exact List.map_congr_left fun k hk => (hold _ (hrootlt k hk)).trans (h.valued.root (hkids k hk))
      rw [← hvalues]
      refine hr.make op data hvalued fun x hx => ?_
      obtain ⟨k, hk, rfl⟩ := List.mem_map.mp hx
      dsimp only
      refine ⟨by rw [ha.length]; exact Nat.lt_succ_of_lt (hrootlt k hk), ?_⟩
      rw [ha.root, hg.stored.grove.root_root, hold _ (hrootlt k hk)]
      unfold factAt
      dsimp only
      rw [hfact _ _ (hrootlt k hk)]
      exact h.facts _ (hrootlt k hk)
    refine ⟨ν', s.graph.parent.length, rfl, ⟨⟨⟨⟨hvalued, ?_, fun c hc => ?_⟩, ?_, hold⟩, h, hretains⟩, hgathers⟩,
      ⟨?_, hnew⟩, ?_⟩
    · dsimp only
      rw [List.length_append, List.length_singleton, hslots, ha.length]
    · dsimp only at hc
      rw [ha.length] at hc
      unfold factAt
      dsimp only
      rcases Nat.lt_succ_iff_lt_or_eq.mp hc with hc | rfl
      · rw [hfact _ c hc, hold c hc]
        exact h.facts c hc
      · rw [List.getD_append_right _ _ _ _ (le_of_eq hslots), hslots, Nat.sub_self, hnew]
        exact hmake
    · exact hgathers.length
    · dsimp only
      rw [ha.length]
      exact Nat.lt_succ_self _
    · dsimp only
      rw [ha.root]
      exact root_beyond hg.stored.grove (le_refl _)

/-- The join of two facts about one value is in the slot of the class that is left. -/
theorem mergeFact_holds (hr : L.Reads an) (hg : Stored s.graph) {a b : Nat} (ha : a < s.graph.parent.length)
    (hb : b < s.graph.parent.length) (hab : ν (Egraph.root s.graph.parent a) = ν (Egraph.root s.graph.parent b))
    (hfacts : ∀ c < s.graph.parent.length, L.holds (factAt an s c) (ν c)) :
    (mergeFact an s a b).2.class_data.length = s.class_data.length ∧
      ∀ c < s.graph.parent.length, L.holds (factAt an (mergeFact an s a b).2 c) (ν c) := by
  have hrootA := hg.grove.root_lt ha
  have hrootB := hg.grove.root_lt hb
  unfold mergeFact
  rcases egMerge_spec hg ha hb with ⟨-, hret, -⟩ | ⟨hne, hret, p, q, hpq, hm⟩
  · generalize egMerge s.graph a b = r at hret ⊢
    obtain ⟨merged, graph⟩ := r
    dsimp only at hret
    subst hret
    exact ⟨rfl, hfacts⟩
  · generalize egMerge s.graph a b = r at hret hm ⊢
    obtain ⟨merged, graph⟩ := r
    dsimp only at hret hm
    subst hret
    have hsurvivor : Egraph.root graph.parent a = p ∧
        (if p = Egraph.root s.graph.parent a then Egraph.root s.graph.parent b else Egraph.root s.graph.parent a) = q ∧
          p < s.graph.parent.length ∧ q < s.graph.parent.length ∧ ν p = ν q := by
      rw [hm.root]
      rcases hpq with ⟨rfl, rfl⟩ | ⟨rfl, rfl⟩
      · rw [if_neg hne, if_pos rfl]
        exact ⟨rfl, rfl, hrootA, hrootB, hab⟩
      · rw [if_pos rfl, if_neg (Ne.symm hne)]
        exact ⟨rfl, rfl, hrootB, hrootA, hab.symm⟩
    obtain ⟨hp, hq, hpl, hql, hval⟩ := hsurvivor
    dsimp only
    rw [hp, hq]
    refine ⟨List.length_set, fun c hc => ?_⟩
    have hjoined : L.holds (an.join (factAt an s p) (factAt an s q)) (ν p) :=
      hr.join (hfacts p hpl) (by rw [hval]; exact hfacts q hql)
    have hc' := hfacts c hc
    unfold factAt at hc' hjoined ⊢
    dsimp only
    by_cases hcp : p = c
    · subst hcp
      by_cases hlt : p < s.class_data.length
      · rw [List.getD_eq_getElem?_getD, List.getElem?_set_self hlt, Option.getD_some]
        exact hjoined
      · rw [List.set_eq_of_length_le (not_lt.mp hlt)]
        exact hc'
    · rw [List.getD_eq_getElem?_getD, List.getElem?_set_ne hcp, ← List.getD_eq_getElem?_getD]
      exact hc'

/-- **Merging** what has one value. -/
theorem mergeFact_goes (hr : L.Reads an) (h : Sense L an ν s) {a b : Nat} {v : V} (ha : Has ν s a v)
    (hb : Has ν s b v) : Goes L an ν s ν (mergeFact an s a b).2 := by
  have hvalued := h.valued.merge ha.1 hb.1 (ha.2.trans hb.2.symm)
  have hgathers := Gathers.merge h.valued.whole a b
  have hretains := Retains.merge h.valued.whole.stored a b
  have hlen : (egMerge s.graph a b).2.parent.length = s.graph.parent.length := by
    rcases egMerge_spec h.valued.whole.stored ha.1 hb.1 with ⟨-, -, hs⟩ | ⟨-, -, _, _, -, hm⟩
    · exact hs.halved.length
    · exact hm.length
  obtain ⟨hslots, hfacts⟩ := mergeFact_holds hr h.valued.whole.stored ha.1 hb.1
    (by rw [h.valued.root ha.1, h.valued.root hb.1, ha.2, hb.2]) h.facts
  have hgraph := (mergeFact_graph an s a b).2
  rw [← hgraph] at hvalued hgathers hretains hlen
  refine ⟨⟨⟨⟨hvalued, ?_, fun c hc => hfacts c ?_⟩, le_of_eq hlen.symm, fun _ _ => rfl⟩, h, hretains⟩, hgathers⟩
  · rw [hslots, h.slots, hlen]
  · rw [← hlen]
    exact hc

/-- What is asked of an analysis and of the auxiliaries. -/
structure Language.Describes (L : Language V D) (an : EgAnalysis D)
    (aux : String → View D → List (Option Nat) → Option Nat) : Prop extends L.Reads an where
  /-- What `modify` adds and merges because of what is so does not change a value. -/
  modify : ∀ {ν : Nat → V} {s : Analysed D} {c : Nat}, Sense L an ν s → c < s.graph.parent.length →
    Egraph.root s.graph.parent c = c → ∃ ν', Advance L an ν s ν' (an.modify s c (factAt an s c))
  helper : ∀ {ν : Nat → V} {s : Analysed D} (name : String) {ids : List Nat} {id : Nat}, Sense L an ν s →
    (∀ k ∈ ids, k < s.graph.parent.length) → aux name (view s) (ids.map some) = some id →
      Has ν s id (L.helper name (ids.map ν))
  /-- For -1 they give -1. -/
  refuses : ∀ (name : String) (v : View D) {ids : List (Option Nat)}, none ∈ ids → aux name v ids = none

variable {aux : String → View D → List (Option Nat) → Option Nat}

/-- **`eg_add`**, with its `modify`. -/
theorem addFact_goes (hL : L.Describes an aux) (han : Contract an) (h : Sense L an ν s) (op data : Int)
    {kids : List Nat} (hkids : ∀ k ∈ kids, k < s.graph.parent.length) :
    ∃ ν' id, (addFact an s op data kids).1 = some id ∧ Goes L an ν s ν' (addFact an s op data kids).2 ∧
      Has ν' (addFact an s op data kids).2 id (L.meaning op data (kids.map ν)) := by
  obtain ⟨ν₁, id, hret, hgoes, hhas, hroot⟩ := addNode_goes hL.toReads h op data hkids
  unfold addFact
  generalize addNode an s op data kids = r at hret hgoes hhas hroot ⊢
  obtain ⟨ret, s₁⟩ := r
  dsimp only at hret hgoes hhas hroot
  subst hret
  dsimp only
  split
  · exact ⟨ν₁, id, rfl, hgoes, hhas⟩
  · obtain ⟨ν₂, hadvance⟩ := hL.modify hgoes.sense hhas.1 hroot
    have hworks := han.works s₁ id (factAt an s₁ id)
    have hwhole := hgoes.sense.valued.whole
    exact ⟨ν₂, id, rfl, hgoes.trans ⟨⟨hadvance, hgoes.sense, hworks.retains hwhole⟩, hworks.gathers hwhole⟩,
      hhas.advance hadvance⟩

end Bbq.Egraph
