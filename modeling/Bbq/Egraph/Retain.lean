import Bbq.Egraph.Grow
import Bbq.Egraph.Represent

/-!
# What a class represents it keeps

No call takes a term away from a class. Nodes stay where they are, or move along with their class, and where
`eg_rebuild` retires one it leaves its twin.

* `Retains`: the relation between the graph before and the one after.
* **`represents_retained`**: so a term is still represented.
* `Works.retains`: by a hook's work. What `eg_rebuild` does is taken step by step (`retire`, `insert`, `recanonicalised`).
* **`addFact_represents`**: the id that `eg_add` gives back represents the term that was added.
-/

namespace Bbq.Egraph

open Bbq.Lib

variable {g g' g'' : EGraph}

/-- Classes stay together, and each live node has one like it. -/
structure Retains (g g' : EGraph) : Prop where
  length : g.parent.length ≤ g'.parent.length
  roots : ∀ a < g.parent.length, ∀ b < g.parent.length, root g.parent a = root g.parent b →
    root g'.parent a = root g'.parent b
  nodes : ∀ (i : Nat) (n : EgNode), g.nodes[i]? = some n → n.live = true →
    ∃ (j : Nat) (n' : EgNode), g'.nodes[j]? = some n' ∧ n'.live = true ∧ n'.op = n.op ∧ n'.data = n.data ∧
      n'.kids.map (root g'.parent) = n.kids.map (root g'.parent) ∧ root g'.parent n'.cls = root g'.parent n.cls

/-- Ids of the same classes are so afterwards. -/
theorem roots_map {p p' : List Nat} {n : Nat}
    (h : ∀ a < n, ∀ b < n, root p a = root p b → root p' a = root p' b) : ∀ {ks ks' : List Nat}, (∀ k ∈ ks, k < n) →
      (∀ k ∈ ks', k < n) → ks.map (root p) = ks'.map (root p) → ks.map (root p') = ks'.map (root p')
  | [], [], _, _, _ => rfl
  | [], _ :: _, _, _, heq => by cases heq
  | _ :: _, [], _, _, heq => by cases heq
  | k :: ks, k' :: ks', hks, hks', heq => by
    rw [List.map_cons, List.map_cons, List.cons.injEq] at heq
    rw [List.map_cons, List.map_cons, h k (hks k List.mem_cons_self) k' (hks' k' List.mem_cons_self) heq.1,
      roots_map h (fun x hx => hks x (List.mem_cons_of_mem _ hx)) (fun x hx => hks' x (List.mem_cons_of_mem _ hx)) heq.2]

namespace Retains

theorem refl (g : EGraph) : Retains g g :=
  ⟨le_refl _, fun _ _ _ _ h => h, fun i n hn hlive => ⟨i, n, hn, hlive, rfl, rfl, rfl, rfl⟩⟩

theorem trans (hg : Stored g) (hg' : Stored g') (h : Retains g g') (h' : Retains g' g'') : Retains g g'' where
  length := h.length.trans h'.length
  roots := fun a ha b hb hroots =>
    h'.roots a (lt_of_lt_of_le ha h.length) b (lt_of_lt_of_le hb h.length) (h.roots a ha b hb hroots)
  nodes := fun i n hn hlive => by
    obtain ⟨j, n', hn', hlive', hop', hdata', hkids', hcls'⟩ := h.nodes i n hn hlive
    obtain ⟨k, n'', hn'', hlive'', hop'', hdata'', hkids'', hcls''⟩ := h'.nodes j n' hn' hlive'
    refine ⟨k, n'', hn'', hlive'', hop''.trans hop', hdata''.trans hdata', hkids''.trans ?_, hcls''.trans ?_⟩
    · exact roots_map h'.roots (hg'.kids j n' hn') (fun x hx => lt_of_lt_of_le (hg.kids i n hn x hx) h.length) hkids'
    · exact h'.roots _ (hg'.cls j n' hn').1 _ (lt_of_lt_of_le (hg.cls i n hn).1 h.length) hcls'

/-- Nodes stay, and no root moves. -/
theorem of_nodes (hlen : g.parent.length ≤ g'.parent.length) (hroot : ∀ x, root g'.parent x = root g.parent x)
    (h : ∀ (i : Nat) (n : EgNode), g.nodes[i]? = some n → n.live = true → ∃ n', g'.nodes[i]? = some n' ∧
      n'.live = true ∧ n'.op = n.op ∧ n'.data = n.data ∧ n'.kids.map (Egraph.root g.parent) =
        n.kids.map (Egraph.root g.parent) ∧ n'.cls = n.cls) : Retains g g' := by
  have hroots : Egraph.root g'.parent = Egraph.root g.parent := funext hroot
  refine ⟨hlen, fun a _ b _ hab => by rw [hroots, hab], fun i n hn hlive => ?_⟩
  obtain ⟨n', hn', hlive', hop, hdata, hkids, hcls⟩ := h i n hn hlive
  rw [hroots]
  exact ⟨i, n', hn', hlive', hop, hdata, hkids, by rw [hcls]⟩

theorem of_same (hs : Same g g') : Retains g g' :=
  of_nodes (le_of_eq hs.halved.length.symm) hs.halved.root fun i n hn hlive =>
    ⟨n, by rw [hs.nodes, hn], hlive, rfl, rfl, rfl, rfl⟩

theorem of_added {op data : Int} {kids : List Nat} (ha : Added g g' op data kids) : Retains g g' :=
  of_nodes (by rw [ha.length]; exact Nat.le_succ _) ha.root fun i n hn hlive =>
    ⟨n, by rw [ha.old i (List.getElem?_eq_some_iff.mp hn).1, hn], hlive, rfl, rfl, rfl, rfl⟩

theorem add (hg : Whole g) (op data : Int) (kids : List Nat) : Retains g (egAdd g op data kids).2 := by
  by_cases hkids : ∀ k ∈ kids, egValid g k
  · rcases egAdd_spec hg.stored hg.keyed op data hkids with ⟨_, _, _, _, _, _, _, _, hs⟩ | ⟨-, -, ha⟩
    · exact of_same hs
    · exact of_added ha
  · unfold egAdd
    rw [if_neg hkids]
    exact refl g

/-- The nodes of a class that is merged away go where the class goes. -/
theorem merge (hg : Stored g) (a b : Nat) : Retains g (egMerge g a b).2 := by
  by_cases hvalid : egValid g a ∧ egValid g b
  · rcases egMerge_spec hg hvalid.1 hvalid.2 with ⟨-, -, hs⟩ | ⟨-, -, p, q, hpq, hm⟩
    · exact of_same hs
    · refine ⟨le_of_eq hm.length.symm, fun x _ y _ hxy => by rw [hm.root, hm.root, hxy], fun i n hn hlive => ?_⟩
      refine ⟨i, _, by rw [hm.nodes, hn, Option.map_some], ?_⟩
      by_cases hq : n.cls = q
      · rw [if_pos hq]
        refine ⟨hlive, rfl, rfl, rfl, ?_⟩
        have hp : Egraph.root g.parent p = p := by
          rcases hpq with ⟨rfl, -⟩ | ⟨rfl, -⟩
          · exact hg.grove.root_root a
          · exact hg.grove.root_root b
        dsimp only
        rw [hm.root, hm.root, hp, hg.root_cls hn, if_pos hq]
        split
        · rfl
        · rfl
      · rw [if_neg hq]
        exact ⟨hlive, rfl, rfl, rfl, rfl⟩
  · unfold egMerge
    rw [if_neg hvalid]
    exact refl g

/-- A node with a live twin in its class can be spared. -/
theorem retire {m j : Nat} {n n' : EgNode} (hj : j ≠ m) (hn : g.nodes[m]? = some n) (hn' : g.nodes[j]? = some n')
    (hlive : n'.live = true) (hop : n'.op = n.op) (hdata : n'.data = n.data) (hkids : n'.kids = n.kids)
    (hcls : n'.cls = n.cls) : Retains g (Egraph.retire g m) := by
  refine ⟨le_refl _, fun _ _ _ _ h => h, fun i n₁ hn₁ hlive₁ => ?_⟩
  by_cases hi : i = m
  · subst hi
    rw [hn] at hn₁
    obtain rfl := Option.some.inj hn₁
    refine ⟨j, n', ?_, hlive, hop, hdata, by rw [hkids], by rw [hcls]⟩
    rw [retire_getElem?, hn', Option.map_some, if_neg hj]
  · refine ⟨i, n₁, ?_, hlive₁, rfl, rfl, rfl, rfl⟩
    rw [retire_getElem?, hn₁, Option.map_some, if_neg hi]

theorem insert (g : EGraph) (m : Nat) (h : BitVec 64) : Retains g (hashconsInsert g m h) := by
  refine of_nodes (le_refl _) (fun _ => rfl) fun i n hn hlive =>
    ⟨if m = i then { n with next_hash := g.hashcons h } else n, ?_, ?_⟩
  · rw [hashconsInsert_getElem?, hn, Option.map_some]
  · split
    · exact ⟨hlive, rfl, rfl, rfl, rfl⟩
    · exact ⟨hlive, rfl, rfl, rfl, rfl⟩

theorem recanonicalised (hg : Stored g) {m : Nat} (h : Recanonicalised g g' m) : Retains g g' := by
  refine of_nodes (le_of_eq h.halved.length.symm) h.halved.root fun i n hn hlive =>
    ⟨if i < m then canonicalNode g.parent n else n, ?_, ?_⟩
  · rw [h.nodes, hn, Option.map_some]
  · unfold canonicalNode
    rw [if_pos hlive]
    split
    · refine ⟨hlive, rfl, rfl, ?_, rfl⟩
      dsimp only
      rw [List.map_map]
      exact List.map_congr_left fun x _ => hg.grove.root_root x
    · exact ⟨hlive, rfl, rfl, rfl, rfl⟩

end Retains

theorem Works.retains {D : Type} {an : EgAnalysis D} {s s' : Analysed D} (h : Works an s s') (hs : Whole s.graph) :
    Retains s.graph s'.graph := by
  induction h with
  | done => exact .refl _
  | find x h ih =>
    have hg := (h.onward hs).whole.stored
    exact ih.trans hs.stored hg (.of_same (egFind_same hg.grove x))
  | add op data kids h ih =>
    rw [(addNode_graph an _ op data kids).2]
    exact ih.trans hs.stored (h.onward hs).whole.stored (.add (h.onward hs).whole op data kids)
  | merge a b h ih =>
    rw [(mergeFact_graph an _ a b).2]
    exact ih.trans hs.stored (h.onward hs).whole.stored (.merge (h.onward hs).whole.stored a b)

/-! ## Terms -/

theorem Represents.lt {excl : Int × Int} (hg : Stored g) {t : EgTerm} {c : Nat} (h : Represents g excl t c) :
    c < g.parent.length := by
  obtain ⟨label, ts⟩ := t
  unfold Represents at h
  obtain ⟨-, n, hn, -, -, hroot, -⟩ := h
  obtain ⟨i, hi⟩ := List.getElem?_of_mem hn
  by_contra hc
  have hlt := hg.grove.root_lt (hg.cls i n hi).1
  rw [hroot, root_beyond hg.grove (not_lt.mp hc)] at hlt
  exact hc hlt

theorem Represents.of_root {excl : Int × Int} {t : EgTerm} {c c' : Nat} (h : Represents g excl t c)
    (hc : root g.parent c = root g.parent c') : Represents g excl t c' := by
  cases t with
  | mk label ts =>
    unfold Represents at h ⊢
    rw [← hc]
    exact h

theorem RepresentsAll.of_roots {excl : Int × Int} : ∀ {ts : List EgTerm} {cs cs' : List Nat},
    RepresentsAll g excl ts cs → cs.map (root g.parent) = cs'.map (root g.parent) → RepresentsAll g excl ts cs'
  | ts, [], [], h, _ => h
  | _, [], _ :: _, _, heq => by cases heq
  | _, _ :: _, [], _, heq => by cases heq
  | [], c :: cs, c' :: cs', h, _ => by
    unfold RepresentsAll at h
    exact h.elim
  | t :: ts, c :: cs, c' :: cs', h, heq => by
    unfold RepresentsAll at h ⊢
    rw [List.map_cons, List.map_cons, List.cons.injEq] at heq
    exact ⟨h.1.of_root heq.1, RepresentsAll.of_roots h.2 heq.2⟩

mutual

/-- **A term that a class represents** it represents afterwards. -/
theorem represents_retained {excl : Int × Int} (hg : Stored g) (h : Retains g g') : ∀ {t : EgTerm} {c : Nat},
    Represents g excl t c → Represents g' excl t c
  | .mk label ts, c, ht => by
    have hc := ht.lt hg
    unfold Represents at ht ⊢
    obtain ⟨hexcl, n, hn, hlive, rfl, hroot, hkids⟩ := ht
    obtain ⟨i, hi⟩ := List.getElem?_of_mem hn
    obtain ⟨j, n', hn', hlive', hop, hdata, hkids', hcls⟩ := h.nodes i n hi hlive
    refine ⟨hexcl, n', List.mem_of_getElem? hn', hlive', by rw [hop, hdata], ?_, ?_⟩
    · rw [hcls]
      exact h.roots _ (hg.cls i n hi).1 c hc hroot
    · exact (representsAll_retained hg h hkids).of_roots hkids'.symm

theorem representsAll_retained {excl : Int × Int} (hg : Stored g) (h : Retains g g') :
    ∀ {ts : List EgTerm} {cs : List Nat}, RepresentsAll g excl ts cs → RepresentsAll g' excl ts cs
  | [], [], hts => by
    unfold RepresentsAll
    trivial
  | t :: ts, c :: cs, hts => by
    unfold RepresentsAll at hts ⊢
    exact ⟨represents_retained hg h hts.1, representsAll_retained hg h hts.2⟩
  | [], _ :: _, hts => by
    unfold RepresentsAll at hts
    exact hts.elim
  | _ :: _, [], hts => by
    unfold RepresentsAll at hts
    exact hts.elim

end

theorem RepresentsAll.lt {excl : Int × Int} (hg : Stored g) : ∀ {ts : List EgTerm} {cs : List Nat},
    RepresentsAll g excl ts cs → ∀ c ∈ cs, c < g.parent.length
  | _, [], _, c, hc => absurd hc List.not_mem_nil
  | [], _ :: _, h, _, _ => by
    unfold RepresentsAll at h
    exact h.elim
  | t :: ts, d :: cs, h, c, hc => by
    unfold RepresentsAll at h
    rcases List.mem_cons.mp hc with rfl | hc
    · exact h.1.lt hg
    · exact RepresentsAll.lt hg h.2 c hc

variable {D : Type} {an : EgAnalysis D} {s : Analysed D}

theorem addFact_works (han : Contract an) (s : Analysed D) (op data : Int) (kids : List Nat) :
    Works an (addNode an s op data kids).2 (addFact an s op data kids).2 := by
  unfold addFact
  generalize addNode an s op data kids = r
  obtain ⟨id, s₁⟩ := r
  cases id with
  | none => exact .done
  | some cls =>
    dsimp only
    split
    · exact .done
    · exact han.works s₁ cls _

theorem addFact_retains (han : Contract an) (hs : Whole s.graph) (op data : Int) (kids : List Nat) :
    Retains (egAdd s.graph op data kids).2 (addFact an s op data kids).2.graph := by
  rw [← (addNode_graph an s op data kids).2]
  refine (addFact_works han s op data kids).retains ?_
  rw [(addNode_graph an s op data kids).2]
  exact (Onward.add hs op data kids).whole

/-- **A term that is added** is represented by the id that is given back. -/
theorem addFact_represents (han : Contract an) (hs : Whole s.graph) {excl : Int × Int} {op data : Int} {kids : List Nat}
    {ts : List EgTerm} (hexcl : (op, data) ≠ excl) (hts : RepresentsAll s.graph excl ts kids) {id : Nat}
    (hret : (addFact an s op data kids).1 = some id) :
    Represents (addFact an s op data kids).2.graph excl (.mk (op, data) ts) id := by
  have hg := hs.stored
  have hkids := hts.lt hg
  have hadd := Onward.add hs op data kids
  rw [addFact_fst] at hret
  refine represents_retained hadd.whole.stored (addFact_retains han hs op data kids) ?_
  have hall := representsAll_retained hg (Retains.add hs op data kids) hts
  unfold Represents
  rcases egAdd_spec hg hs.keyed op data hkids with ⟨i, n, hn, hlive, rfl, rfl, hnkids, hcls, hsame⟩ | ⟨-, hnew, ha⟩
  · rw [hret] at hcls
    obtain rfl := Option.some.inj hcls
    refine ⟨hexcl, n, by rw [hsame.nodes]; exact List.mem_of_getElem? hn, hlive, rfl, rfl, hall.of_roots ?_⟩
    rw [hnkids, List.map_map]
    refine List.map_congr_left fun k _ => ?_
    rw [Function.comp_apply, hsame.halved.root, hsame.halved.root, hg.grove.root_root]
  · rw [hret] at hnew
    obtain rfl := Option.some.inj hnew
    obtain ⟨n, hn, hop, hdata, hnkids, hcls, hlive⟩ := ha.new
    refine ⟨hexcl, n, List.mem_of_getElem? hn, hlive, by rw [hop, hdata], by rw [hcls], hall.of_roots ?_⟩
    rw [hnkids, List.map_map]
    refine List.map_congr_left fun k _ => ?_
    rw [Function.comp_apply, ha.root, ha.root, hg.grove.root_root]

end Bbq.Egraph
