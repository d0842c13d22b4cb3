import Bbq.Egraph.Sense

/-!
# Rebuilding keeps the sense

Within a round of `eg_rebuild` the map is empty at first and children are stale, and the graph is nothing whole. What it
stands for stays the same all the while: the terms and the pairs (`Meant`) carry the values from one end of the round to
the other.

* `rekeyFacts_cases`: what becomes of a node in the second loop. Two nodes of one key compute one value, and so the facts
  of their classes may be joined.
* `repairRound_later`, `restoreFacts_later`: a round, and the sweeps of `analysis_restore`, however far they get.
* **`rebuildFacts_later`**: the rounds, with the `modify` of all classes after each.
-/

namespace Bbq.Egraph

open Bbq.Lib

variable {V D : Type} {L : Language V D} {an : EgAnalysis D} {ν ν' : Nat → V} {s s' : Analysed D}
  {ts : List EgTerm} {E : List (EgTerm × EgTerm)} {g : EGraph}

/-! ## Repair -/

/-- The terms have the values of their ids, and the pairs of terms one value each. -/
structure Agrees (L : Language V D) (ν : Nat → V) (ts : List EgTerm) (E : List (EgTerm × EgTerm)) (n : Nat) : Prop where
  value : ∀ c < n, L.value (termAt ts c) = ν c
  pairs : ∀ p ∈ E, L.value p.1 = L.value p.2

theorem Agrees.node (hA : Agrees L ν ts E g.parent.length) (hg : Stored g) (hm : Meant g ts E) {i : Nat} {n : EgNode}
    (hn : g.nodes[i]? = some n) : ν n.cls = L.meaning n.op n.data (n.kids.map ν) := by
  have hcong := value_of_cong hA.pairs (hm.nodes_sound i n hn)
  have hvalues : (n.kids.map (termAt ts)).map L.value = n.kids.map ν := by
    rw [List.map_map]
    exact List.map_congr_left fun k hk => hA.value k (hg.kids i n hn k hk)
  rw [hA.value _ (hg.cls i n hn).1, L.value_eq, hvalues] at hcong
  exact hcong

theorem Agrees.valued (hA : Agrees L ν ts E g.parent.length) (hw : Whole g) (hm : Meant g ts E) : Valued L ν g where
  whole := hw
  one := one_of_meant hm hA.value hA.pairs
  node := fun _ _ hn => hA.node hw.stored hm hn

/-- There are `n` facts, and they hold. -/
structure Factual (L : Language V D) (an : EgAnalysis D) (ν : Nat → V) (n : Nat) (s : Analysed D) : Prop where
  slots : s.class_data.length = n
  facts : ∀ c < n, L.holds (factAt an s c) (ν c)

/-- **One node of the second loop**: it is passed over, or put into the map, or retired, as another one has its key.
The classes of the two are merged then. -/
theorem rekeyFacts_cases (an : EgAnalysis D) {g₀ : EGraph} {m : Nat} (h : Repaired g₀ s.graph m ts E) :
    rekeyFacts an s m = s ∨ (∃ key, rekeyFacts an s m = { s with graph := hashconsInsert s.graph m key }) ∨
      ∃ (g₁ : EGraph) (j : Nat) (n n' : EgNode), Same s.graph g₁ ∧ j ≠ m ∧ s.graph.nodes[m]? = some n ∧
        s.graph.nodes[j]? = some n' ∧ n'.live = true ∧ n'.op = n.op ∧ n'.data = n.data ∧ n'.kids = n.kids ∧
          (n'.cls = n.cls ∧ rekeyFacts an s m = { s with graph := retire g₁ m } ∨
            n'.cls ≠ n.cls ∧ rekeyFacts an s m =
              { (mergeFact an { s with graph := g₁ } n'.cls n.cls).2 with
                graph := retire (egMerge g₁ n'.cls n.cls).2 m }) := by
  unfold rekeyFacts
  cases hn : s.graph.nodes[m]? with
  | none => exact .inl rfl
  | some n =>
    dsimp only
    by_cases hlive : n.live = true
    · rw [if_pos hlive]
      unfold hashconsLookup
      cases hchain : chainFind s.graph.nodes n.op n.data n.kids s.graph.nodes.length
          (s.graph.hashcons (nodeHash n.op n.data n.kids)) with
      | none => exact .inr (.inl ⟨_, rfl⟩)
      | some j =>
        obtain ⟨n', hn', hlive', hop, hdata, hkids⟩ := chainFind_sound hchain
        have hj : j ≠ m := ne_of_lt (chainFind_lt h.stored.chain hchain (h.keyed.heads _))
        have hclsOf : ∀ {g : EGraph} {i : Nat} {n : EgNode}, g.nodes[i]? = some n → clsOf g i = n.cls := by
          intro g i n hn
          unfold clsOf
          rw [hn]
          rfl
        dsimp only
        have hfirst := egFind_same h.stored.grove (clsOf s.graph j)
        have hother : (egFind s.graph (clsOf s.graph j)).1 = n'.cls := by
          rw [egFind_fst, hclsOf hn', h.stored.root_cls hn']
        have hn₁ : (egFind s.graph (clsOf s.graph j)).2.nodes[m]? = some n := by rw [hfirst.nodes, hn]
        have hsecond := egFind_same hfirst.halved.grove (clsOf (egFind s.graph (clsOf s.graph j)).2 m)
        have hmine : (egFind (egFind s.graph (clsOf s.graph j)).2 (clsOf (egFind s.graph (clsOf s.graph j)).2 m)).1 =
            n.cls := by
          rw [egFind_fst, hclsOf hn₁, hfirst.halved.root, h.stored.root_cls hn]
        simp only [hother, hmine]
        refine .inr (.inr ⟨_, j, n, n', hfirst.trans hsecond, hj, rfl, hn', hlive', hop, hdata, hkids, ?_⟩)
        by_cases hcls : n'.cls = n.cls
        · rw [if_neg (not_not.mpr hcls)]
          exact .inl ⟨hcls, rfl⟩
        · rw [if_pos hcls, (mergeFact_graph an _ n'.cls n.cls).2]
          exact .inr ⟨hcls, rfl⟩
    · rw [if_neg hlive]
      exact .inl rfl

/-- The classes of two nodes of one key have one value. -/
theorem rekeyFacts_factual (hr : L.Reads an) {g₀ : EGraph} {m : Nat} (h : Repaired g₀ s.graph m ts E)
    (hA : Agrees L ν ts E s.graph.parent.length) (hf : Factual L an ν s.graph.parent.length s) :
    Factual L an ν s.graph.parent.length (rekeyFacts an s m) := by
  rcases rekeyFacts_cases an h with heq | ⟨key, heq⟩ |
    ⟨g₁, j, n, n', hs, -, hn, hn', -, hop, hdata, hkids, ⟨-, heq⟩ | ⟨-, heq⟩⟩
  · rw [heq]
    exact hf
  · rw [heq]
    exact ⟨hf.slots, hf.facts⟩
  · rw [heq]
    exact ⟨hf.slots, hf.facts⟩
  · rw [heq]
    have hlen : g₁.parent.length = s.graph.parent.length := hs.halved.length
    have hval : ν n'.cls = ν n.cls := by
      rw [hA.node h.stored h.meant hn, hA.node h.stored h.meant hn', hop, hdata, hkids]
    have hboth := mergeFact_holds (ν := ν) (s := { s with graph := g₁ }) hr (hs.stored h.stored)
      (a := n'.cls) (b := n.cls) (by rw [hlen]; exact (h.stored.cls j n' hn').1)
      (by rw [hlen]; exact (h.stored.cls m n hn).1)
      (by rw [hs.halved.root, hs.halved.root, h.stored.root_cls hn, h.stored.root_cls hn', hval])
      (fun c hc => hf.facts c (by rw [← hlen]; exact hc))
    refine ⟨hboth.1.trans hf.slots, fun c hc => ?_⟩
    exact hboth.2 c (by rw [hlen]; exact hc)

theorem rekeyFacts_retains (an : EgAnalysis D) {g₀ : EGraph} {m : Nat} (h : Repaired g₀ s.graph m ts E) :
    Retains s.graph (rekeyFacts an s m).graph := by
  rcases rekeyFacts_cases an h with heq | ⟨key, heq⟩ |
    ⟨g₁, j, n, n', hs, hj, hn, hn', hlive, hop, hdata, hkids, ⟨hcls, heq⟩ | ⟨hcls, heq⟩⟩
  · rw [heq]
    exact .refl _
  · rw [heq]
    exact .insert _ m key
  · rw [heq]
    rw [← hs.nodes] at hn hn'
    exact .trans h.stored (hs.stored h.stored) (.of_same hs) (.retire hj hn hn' hlive hop hdata hkids hcls)
  · rw [heq]
    rw [← hs.nodes] at hn hn'
    have h₁ := h.same hs
    obtain ⟨hmerged, c, hnode, hnode'⟩ := h₁.merge hn hn' hop hdata hkids hcls
    refine .trans h.stored h₁.stored (.of_same hs) (.trans h₁.stored hmerged.stored (.merge h₁.stored _ _) ?_)
    exact .retire hj hnode hnode' hlive hop hdata hkids rfl

/-- **A round of `eg_rebuild`.** -/
theorem repairRound_later (hr : L.Reads an) (h : Sense L an ν s) : Later L an ν s ν (repairRound an s) := by
  obtain ⟨ts, E, hk⟩ := h.valued.whole
  have hA : Agrees L ν ts E s.graph.parent.length := ⟨h.valued.term hk.meant, h.valued.pairs hk.meant⟩
  have hend := (rebuildRound_spec hk.stored hk.meant).1
  have hlen : (rebuildRound s.graph).parent.length = s.graph.parent.length := by
    rw [← hend.meant.count, hk.meant.count]
  have hreset : Stored { s.graph with worklist := [], hashcons := fun _ => none } :=
    ⟨hk.stored.grove, hk.stored.classes, hk.stored.nodes, hk.stored.kids, hk.stored.cls, hk.stored.listed,
      hk.stored.once, hk.stored.chain⟩
  have hresetMeant : Meant { s.graph with worklist := [], hashcons := fun _ => none } ts E :=
    ⟨hk.meant.count, hk.meant.classes_sound, hk.meant.nodes_sound, hk.meant.merged, hk.meant.built⟩
  have hrest : Factual L an ν s.graph.parent.length (repairRound an s) ∧
      Retains s.graph (repairRound an s).graph := by
    unfold repairRound
    dsimp only
    have hfirst := recanonicalised hreset s.graph.nodes.length
    generalize (List.range s.graph.nodes.length).foldl recanonicalise
      { s.graph with worklist := [], hashcons := fun _ => none } = g₁ at hfirst ⊢
    have hlen₁ : g₁.parent.length = s.graph.parent.length := hfirst.halved.length
    have hstored₁ := hfirst.stored hreset
    -- the invariant of the second loop, with the facts and what the classes represent
    have hrun : ∀ m, Repaired g₁ ((List.range m).foldl (rekeyFacts an) { s with graph := g₁ }).graph m ts E ∧
        Factual L an ν s.graph.parent.length ((List.range m).foldl (rekeyFacts an) { s with graph := g₁ }) ∧
          Retains g₁ ((List.range m).foldl (rekeyFacts an) { s with graph := g₁ }).graph := by
      intro m
      induction m with
      | zero =>
        refine ⟨⟨hstored₁, hfirst.meant hreset hresetMeant, ⟨fun key j hj => ?_, fun i hi => ?_, fun i hi => ?_⟩, rfl,
          fun _ => hfirst.canonical hreset rfl, le_refl _, fun hw => absurd hfirst.worklist hw⟩, ⟨h.slots, h.facts⟩,
          .refl _⟩
        · change g₁.hashcons key = some j at hj
          rw [hfirst.hashcons] at hj
          cases hj
        · exact absurd hi (Nat.not_lt_zero i)
        · exact absurd hi (Nat.not_lt_zero i)
      | succ m ih =>
        rw [List.range_succ, List.foldl_append, List.foldl_cons, List.foldl_nil]
        obtain ⟨hrepaired, hfactual, hretains⟩ := ih
        generalize (List.range m).foldl (rekeyFacts an) { s with graph := g₁ } = s₁ at hrepaired hfactual hretains ⊢
        have hlen' : s₁.graph.parent.length = s.graph.parent.length := hrepaired.count.trans hlen₁
        rw [← hlen'] at hA hfactual ⊢
        refine ⟨?_, rekeyFacts_factual hr hrepaired hA hfactual,
          hretains.trans hstored₁ hrepaired.stored (rekeyFacts_retains an hrepaired)⟩
        rw [rekeyFacts_graph an]
        exact rekey_spec hrepaired
    obtain ⟨-, hfactual, hretains⟩ := hrun g₁.nodes.length
    have hcleared : Retains s.graph { s.graph with worklist := [], hashcons := fun _ => none } :=
      .of_nodes (le_refl _) (fun _ => rfl) fun i n hn hlive => ⟨n, hn, hlive, rfl, rfl, rfl, rfl⟩
    exact ⟨hfactual, .trans hk.stored hreset hcleared (.trans hreset hstored₁ (.recanonicalised hreset hfirst) hretains)⟩
  obtain ⟨hfacts, hretains⟩ := hrest
  have hgraph := repairRound_graph an s
  rw [← hlen] at hA hfacts
  refine ⟨⟨⟨?_, ?_, ?_⟩, ?_, fun _ _ => rfl⟩, h, hretains⟩
  · rw [hgraph]
    exact hA.valued ⟨ts, E, hend⟩ hend.meant
  · rw [hgraph]
    exact hfacts.slots
  · rw [hgraph]
    exact hfacts.facts
  · rw [hgraph, hlen]

/-! ## The facts after it -/

section Restore

variable [DecidableEq D]

theorem restoreNode_sense (hr : L.Reads an) (h : Sense L an ν s) (changed : Bool) (i : Nat) :
    Sense L an ν (restoreNode an (s, changed) i).1 := by
  unfold restoreNode
  dsimp only
  cases hn : s.graph.nodes[i]? with
  | none => exact h
  | some n =>
    dsimp only
    split
    · have hg := h.valued.whole.stored
      have hfind := egFind_same hg.grove n.cls
      have hroot : (egFind s.graph n.cls).1 = n.cls := by rw [egFind_fst, hg.root_cls hn]
      generalize egFind s.graph n.cls = r at hfind hroot ⊢
      obtain ⟨c, graph⟩ := r
      dsimp only at hfind hroot ⊢
      subst hroot
      have h₁ := h.same hfind
      split
      · exact h₁
      · have hcls := (hg.cls i n hn).1
        have hcls₁ : n.cls < graph.parent.length := by
          rw [hfind.halved.length]
          exact hcls
        have hmake : L.holds (an.make { s with graph := graph } n.op n.data n.kids) (ν n.cls) := by
          rw [h.valued.node i n hn]
          refine hr.make n.op n.data h₁.valued fun k hk => ?_
          have hlt : k < graph.parent.length := by
            rw [hfind.halved.length]
            exact hg.kids i n hn k hk
          refine ⟨hlt, ?_⟩
          rw [← h₁.valued.root hlt]
          exact h₁.facts _ (h₁.valued.whole.stored.grove.root_lt hlt)
        have hjoined := hr.join (h₁.facts n.cls hcls₁) hmake
        refine ⟨h₁.valued, by dsimp only; rw [List.length_set]; exact h₁.slots, fun c hc => ?_⟩
        have hc' := h₁.facts c hc
        unfold factAt at hc' hjoined ⊢
        dsimp only at hc' hjoined ⊢
        by_cases hcls' : n.cls = c
        · subst hcls'
          have hslot : n.cls < s.class_data.length := by
            rw [h.slots]
            exact hcls
          rw [List.getD_eq_getElem?_getD, List.getElem?_set_self hslot, Option.getD_some]
          exact hjoined
        · rw [List.getD_eq_getElem?_getD, List.getElem?_set_ne hcls', ← List.getD_eq_getElem?_getD]
          exact hc'
    · exact h

theorem restoreNode_later (hr : L.Reads an) (h : Sense L an ν s) (changed : Bool) (i : Nat) :
    Later L an ν s ν (restoreNode an (s, changed) i).1 := by
  have hs : Same s.graph (restoreNode an (s, changed) i).1.graph := restoreNode_same h.valued.whole changed i
  exact ⟨⟨restoreNode_sense hr h changed i, le_of_eq hs.halved.length.symm, fun _ _ => rfl⟩, h, .of_same hs⟩

/-- **The sweeps**, however many there are. -/
theorem restoreFacts_later (hr : L.Reads an) (rounds : Nat) (h : Sense L an ν s) :
    Later L an ν s ν (restoreFacts an rounds s) := by
  have hsweep : ∀ (l : List Nat) (s : Analysed D) (changed : Bool), Sense L an ν s →
      Later L an ν s ν (l.foldl (restoreNode an) (s, changed)).1 := by
    intro l
    induction l with
    | nil => exact fun s changed h => .refl h
    | cons i l ih =>
      intro s changed h
      have hnode := restoreNode_later hr h changed i
      exact hnode.trans (ih _ (restoreNode an (s, changed) i).2 hnode.sense)
  induction rounds generalizing s with
  | zero => exact .refl h
  | succ rounds ih =>
    have hnext := hsweep (List.range s.graph.nodes.length) s false h
    unfold restoreFacts
    generalize (List.range s.graph.nodes.length).foldl (restoreNode an) (s, false) = r at hnext ⊢
    obtain ⟨s₁, changed⟩ := r
    dsimp only at hnext ⊢
    split
    · exact hnext.trans (ih hnext.sense)
    · exact hnext

variable {aux : String → View D → List (Option Nat) → Option Nat}

/-- The `modify` of the classes, one after the other. -/
theorem analysisRestore_later (hL : L.Describes an aux) (han : Contract an) {fuel : Nat} (h : Sense L an ν s)
    (hrun : analysisRestore an fuel s = some s') : ∃ ν', Later L an ν s ν' s' := by
  have hstart := restoreFacts_later hL.toReads 64 h
  refine loop_inv (P := fun cs : Nat × Analysed D => ∃ ν', Later L an ν s ν' cs.2)
    (Q := fun s' => ∃ ν', Later L an ν s ν' s') (fun cs cs' hcs hgo => ?_) (fun cs s'' hcs hleave => ?_) fuel
    (0, restoreFacts an 64 s) _ ⟨ν, hstart⟩ hrun
  · obtain ⟨c, s₁⟩ := cs
    obtain ⟨ν₁, hlater⟩ := hcs
    have hgo := Option.some.inj hgo
    unfold modifyClass at hgo
    dsimp only at hgo hlater
    by_cases hc : c < s₁.graph.classes.length
    · rw [if_pos hc] at hgo
      have hg := hlater.sense.valued.whole.stored
      have hfind := egFind_same hg.grove c
      have hroot := egFind_fst s₁.graph c
      generalize egFind s₁.graph c = r at hgo hfind hroot
      obtain ⟨r, graph⟩ := r
      dsimp only at hgo hfind hroot
      subst hroot
      have hnext := hlater.trans (Goes.of_same hlater.sense hfind).toLater
      obtain rfl := Sum.inl.inj hgo
      dsimp only
      split
      · next hself =>
        have hlt : c < graph.parent.length := by
          rw [hfind.halved.length, ← hg.classes]
          exact hc
        obtain ⟨ν₂, hmodify⟩ := hL.modify hnext.sense hlt (by dsimp only; rw [hfind.halved.root, hself])
        exact ⟨ν₂, hnext.trans ⟨hmodify, hnext.sense, (han.works _ c _).retains hnext.sense.valued.whole⟩⟩
      · exact ⟨ν₁, hnext⟩
    · rw [if_neg hc] at hgo
      cases hgo
  · obtain ⟨c, s₁⟩ := cs
    have hleave := Option.some.inj hleave
    unfold modifyClass at hleave
    dsimp only at hleave
    by_cases hc : c < s₁.graph.classes.length
    · rw [if_pos hc] at hleave
      cases hleave
    · rw [if_neg hc] at hleave
      obtain rfl := Sum.inr.inj hleave
      exact hcs

/-- **`eg_rebuild`** changes no value. -/
theorem rebuildFacts_later (hL : L.Describes an aux) (han : Contract an) {fuel : Nat} (h : Sense L an ν s)
    (hrun : rebuildFacts an fuel s = some s') : ∃ ν', Later L an ν s ν' s' := by
  refine loop_inv (P := fun s₁ : Analysed D => ∃ ν', Later L an ν s ν' s₁)
    (Q := fun s' => ∃ ν', Later L an ν s ν' s') (fun s₁ s₂ hs₁ hgo => ?_) (fun s₁ s₂ hs₁ hleave => ?_) fuel s _
    ⟨ν, .refl h⟩ hrun
  · by_cases hw : s₁.graph.worklist = []
    · rw [if_pos hw] at hgo
      cases hgo
    · rw [if_neg hw, Option.map_eq_some_iff] at hgo
      obtain ⟨s₃, hrestore, hs₃⟩ := hgo
      obtain rfl := Sum.inl.inj hs₃
      obtain ⟨ν₁, hlater⟩ := hs₁
      have hround := repairRound_later hL.toReads hlater.sense
      obtain ⟨ν₂, hrest⟩ := analysisRestore_later hL han hround.sense hrestore
      exact ⟨ν₂, hlater.trans (hround.trans hrest)⟩
  · by_cases hw : s₁.graph.worklist = []
    · rw [if_pos hw] at hleave
      obtain rfl := Sum.inr.inj (Option.some.inj hleave)
      exact hs₁
    · rw [if_neg hw, Option.map_eq_some_iff] at hleave
      obtain ⟨s₃, -, hs₃⟩ := hleave
      cases hs₃

end Restore

end Bbq.Egraph
