import Bbq.Egraph.Rebuild

/-!
# The e-graph decides congruence

A caller adds terms by the ids of their children, merges ids and rebuilds, in any order. `History` is the
graph with what the caller did: the term each id stands for, the terms added with the ids given for them,
and the pairs merged.

* `classOf` reads off the nodes which class represents a term. It is compositional, so after a rebuild it
  does not tell congruent terms apart.
* **`decides`**: after any calls and a rebuild, ids have one root exactly where their terms are congruent,
  and the graph has no two nodes with one key (`Decided`).
-/

namespace Bbq.Egraph

open Bbq.Lib

variable {g g' : EGraph} {ts : List EgTerm} {E : List (EgTerm × EgTerm)}

/-! ## The class of a term -/

/-- The class of the live node `op[data](kids)`. -/
def nodeClass (g : EGraph) (op data : Int) (kids : List Nat) : Option Nat :=
  (g.nodes.find? fun n => n.live && nodeMatches n op data kids).map EgNode.cls

mutual

/-- The class that represents a term. -/
def classOf (g : EGraph) : EgTerm → Option Nat
  | .mk label ts => (classesOf g ts).bind (nodeClass g label.1 label.2)

def classesOf (g : EGraph) : List EgTerm → Option (List Nat)
  | [] => some []
  | t :: ts => (classOf g t).bind fun c => (classesOf g ts).map (c :: ·)

end

mutual

/-- `eg_add` of the subterms of a term, from the leaves up, and of the term. -/
def addTerm (g : EGraph) : EgTerm → Option Nat × EGraph
  | .mk label ts =>
    match addTerms g ts with
    | (some kids, g) => egAdd g label.1 label.2 kids
    | (none, g) => (none, g)

def addTerms (g : EGraph) : List EgTerm → Option (List Nat) × EGraph
  | [] => (some [], g)
  | t :: ts =>
    match addTerm g t with
    | (some c, g) =>
      match addTerms g ts with
      | (some cs, g) => (some (c :: cs), g)
      | (none, g) => (none, g)
    | (none, g) => (none, g)

end

theorem nodeClass_some {op data : Int} {kids : List Nat} {c : Nat} (h : nodeClass g op data kids = some c) :
    ∃ (i : Nat) (n : EgNode), g.nodes[i]? = some n ∧ n.live = true ∧ n.op = op ∧ n.data = data ∧ n.kids = kids ∧
      n.cls = c := by
  unfold nodeClass at h
  rw [Option.map_eq_some_iff] at h
  obtain ⟨n, hfind, rfl⟩ := h
  obtain ⟨i, hn⟩ := List.getElem?_of_mem (List.mem_of_find?_eq_some hfind)
  have hmatch := List.find?_some hfind
  rw [Bool.and_eq_true, nodeMatches_iff] at hmatch
  obtain ⟨hlive, hop, hdata, hkids⟩ := hmatch
  exact ⟨i, n, hn, hlive, hop, hdata, hkids, rfl⟩

theorem nodeClass_eq (hk : Keyed g g.nodes.length) {i : Nat} {n : EgNode} (hn : g.nodes[i]? = some n)
    (hlive : n.live = true) : nodeClass g n.op n.data n.kids = some n.cls := by
  have hsome : ∃ c, nodeClass g n.op n.data n.kids = some c := by
    unfold nodeClass
    rw [← Option.isSome_iff_exists, Option.isSome_map, List.find?_isSome]
    refine ⟨n, List.mem_of_getElem? hn, ?_⟩
    rw [Bool.and_eq_true, nodeMatches_iff]
    exact ⟨hlive, rfl, rfl, rfl⟩
  obtain ⟨c, hc⟩ := hsome
  obtain ⟨j, n', hn', hlive', hop, hdata, hkids, rfl⟩ := nodeClass_some hc
  have hij := hk.apart i (List.getElem?_eq_some_iff.mp hn).1 j (List.getElem?_eq_some_iff.mp hn').1 n n' hn hn' hlive
    hlive' hop.symm hdata.symm hkids.symm
  rw [hij, hn'] at hn
  obtain rfl := Option.some.inj hn
  exact hc

theorem classesOf_congr {ts us : List EgTerm} (h : ts.map (classOf g) = us.map (classOf g)) :
    classesOf g ts = classesOf g us := by
  induction ts generalizing us with
  | nil =>
    cases us with
    | nil => rfl
    | cons u us => cases h
  | cons t ts ih =>
    cases us with
    | nil => cases h
    | cons u us =>
      rw [List.map_cons, List.map_cons, List.cons.injEq] at h
      unfold classesOf
      rw [h.1, ih h.2]

theorem classesOf_eq {ts : List EgTerm} {cs : List Nat} (h : ts.map (classOf g) = cs.map some) :
    classesOf g ts = some cs := by
  induction ts generalizing cs with
  | nil =>
    cases cs with
    | nil => rfl
    | cons c cs => cases h
  | cons t ts ih =>
    cases cs with
    | nil => cases h
    | cons c cs =>
      rw [List.map_cons, List.map_cons, List.cons.injEq] at h
      unfold classesOf
      rw [h.1, ih h.2]
      rfl

theorem nodeClass_same (hs : Same g g') (op data : Int) (kids : List Nat) :
    nodeClass g' op data kids = nodeClass g op data kids := by
  unfold nodeClass
  rw [hs.nodes]

mutual

theorem classOf_same (hs : Same g g') : ∀ t, classOf g' t = classOf g t
  | .mk label ts => by
    unfold classOf
    rw [classesOf_same hs ts]
    congr 1
    funext kids
    exact nodeClass_same hs label.1 label.2 kids

theorem classesOf_same (hs : Same g g') : ∀ ts, classesOf g' ts = classesOf g ts
  | [] => by
    unfold classesOf
    rfl
  | t :: ts => by
    unfold classesOf
    rw [classOf_same hs t, classesOf_same hs ts]

end

/-! ## After a rebuild -/

/-- Nothing is left to repair. -/
structure Closed (g : EGraph) (ts : List EgTerm) (E : List (EgTerm × EgTerm)) : Prop extends Kept g ts E where
  done : g.worklist = []

/-- The class of the term of an id is the root of the id. -/
theorem Closed.classOf_termAt (h : Closed g ts E) (c : Nat) (hc : c < g.parent.length) :
    classOf g (termAt ts c) = some (root g.parent c) := by
  induction c using Nat.strong_induction_on with
  | _ c ih =>
    obtain ⟨op, data, kids, hterm, hkids, i, n, hn, hlive, rfl, rfl, hroots, hcls⟩ := h.meant.built c hc
    have hchildren : classesOf g (kids.map (termAt ts)) = some (kids.map (root g.parent)) := by
      refine classesOf_eq ?_
      rw [List.map_map, List.map_map]
      exact List.map_congr_left fun k hk => ih k (hkids k hk) (lt_trans (hkids k hk) hc)
    rw [hterm]
    unfold classOf
    rw [hchildren, Option.bind_some, ← hroots, h.canonical h.done i n hn hlive, nodeClass_eq h.keyed hn hlive, hcls]

/-- Congruent terms have one class. -/
theorem Closed.classOf_cong (h : Closed g ts E) {t u : EgTerm} (htu : Cong E t u) : classOf g t = classOf g u := by
  refine htu.respects (fun label ts us hmap => ?_) fun p hp => ?_
  · unfold classOf
    rw [classesOf_congr hmap]
  · obtain ⟨a, ha, b, hb, rfl, hroots⟩ := h.meant.merged p hp
    rw [h.classOf_termAt a ha, h.classOf_termAt b hb, hroots]

theorem Closed.root_iff (h : Closed g ts E) {a b : Nat} (ha : a < g.parent.length) (hb : b < g.parent.length) :
    root g.parent a = root g.parent b ↔ Cong E (termAt ts a) (termAt ts b) := by
  constructor
  · exact h.meant.classes_sound a ha b hb
  · intro hcong
    have hclass := h.classOf_cong hcong
    rw [h.classOf_termAt a ha, h.classOf_termAt b hb] at hclass
    exact Option.some.inj hclass

theorem Closed.same (h : Closed g ts E) (hs : Same g g') : Closed g' ts E where
  stored := hs.stored h.stored
  meant := h.meant.same hs
  keyed := by
    rw [hs.nodes]
    exact h.keyed.same hs
  canonical := fun hw => by
    rw [hs.worklist] at hw
    exact (h.canonical hw).same hs
  done := hs.worklist.trans h.done

/-- Adding the node of a class finds it. -/
theorem Closed.egAdd_found (h : Closed g ts E) {op data : Int} {kids : List Nat} {c : Nat}
    (hc : nodeClass g op data kids = some c) : (egAdd g op data kids).1 = some c ∧ Same g (egAdd g op data kids).2 := by
  obtain ⟨i, n, hn, hlive, rfl, rfl, rfl, rfl⟩ := nodeClass_some hc
  have hcanonical := h.canonical h.done i n hn hlive
  have hi := (List.getElem?_eq_some_iff.mp hn).1
  rcases egAdd_spec h.stored h.keyed n.op n.data (h.stored.kids i n hn) with
    ⟨j, n', hn', hlive', hop, hdata, hkids, hret, hs⟩ | ⟨hnone, -⟩
  · rw [hcanonical] at hkids
    have hij := h.keyed.apart i hi j (List.getElem?_eq_some_iff.mp hn').1 n n' hn hn' hlive hlive' hop.symm hdata.symm
      hkids.symm
    rw [hij, hn'] at hn
    obtain rfl := Option.some.inj hn
    exact ⟨hret, hs⟩
  · exact absurd hcanonical.symm (hnone i hi n hn hlive rfl rfl)

mutual

/-- **Adding an existing term** gives its class, and finds are all that is done. -/
theorem Closed.addTerm_found {ts : List EgTerm} {E : List (EgTerm × EgTerm)} : ∀ {g : EGraph}, Closed g ts E →
    ∀ (t : EgTerm) (c : Nat), classOf g t = some c → (addTerm g t).1 = some c ∧ Same g (addTerm g t).2
  | g, h, .mk label us, c, hc => by
    unfold classOf at hc
    rw [Option.bind_eq_some_iff] at hc
    obtain ⟨kids, hkids, hc⟩ := hc
    obtain ⟨hret, hs⟩ := Closed.addTerms_found h us kids hkids
    unfold addTerm
    generalize addTerms g us = r at hret hs ⊢
    obtain ⟨ret, g₁⟩ := r
    dsimp only at hret hs ⊢
    subst hret
    rw [← nodeClass_same hs] at hc
    obtain ⟨hret', hs'⟩ := (h.same hs).egAdd_found hc
    exact ⟨hret', hs.trans hs'⟩

theorem Closed.addTerms_found {ts : List EgTerm} {E : List (EgTerm × EgTerm)} : ∀ {g : EGraph}, Closed g ts E →
    ∀ (us : List EgTerm) (cs : List Nat), classesOf g us = some cs →
      (addTerms g us).1 = some cs ∧ Same g (addTerms g us).2
  | g, h, [], cs, hcs => by
    unfold classesOf at hcs
    unfold addTerms
    exact ⟨hcs, .refl h.stored.grove⟩
  | g, h, u :: us, cs, hcs => by
    unfold classesOf at hcs
    rw [Option.bind_eq_some_iff] at hcs
    obtain ⟨c, hc, hcs⟩ := hcs
    rw [Option.map_eq_some_iff] at hcs
    obtain ⟨cs, hcs, rfl⟩ := hcs
    obtain ⟨hret, hs⟩ := Closed.addTerm_found h u c hc
    unfold addTerms
    generalize addTerm g u = r at hret hs ⊢
    obtain ⟨ret, g₁⟩ := r
    dsimp only at hret hs ⊢
    subst hret
    rw [← classesOf_same hs] at hcs
    obtain ⟨hret', hs'⟩ := Closed.addTerms_found (h.same hs) us cs hcs
    dsimp only
    generalize addTerms g₁ us = r at hret' hs' ⊢
    obtain ⟨ret', g₂⟩ := r
    dsimp only at hret' hs' ⊢
    subst hret'
    exact ⟨rfl, hs.trans hs'⟩

end

/-! ## Histories -/

/-- A call of the caller. -/
inductive Call
  | add (op data : Int) (kids : List Nat)
  | merge (a b : Nat)
  | rebuild

/-- A graph and what was done with it. -/
structure History where
  graph : EGraph
  /-- The term an id was handed out for. -/
  terms : List EgTerm
  /-- The terms added, with the ids given for them. -/
  added : List (EgTerm × Nat)
  merged : List (EgTerm × EgTerm)

def noHistory : History := { graph := egInit, terms := [], added := [], merged := [] }

/-- One call. An id that was not there before is handed out for the term that is added. -/
def callStep (fuel : Nat) (h : History) : Call → Option History
  | .add op data kids =>
    let t := .mk (op, data) (kids.map (termAt h.terms))
    match egAdd h.graph op data kids with
    | (none, g) => some { h with graph := g }
    | (some id, g) =>
      let terms := if id = h.terms.length then h.terms ++ [t] else h.terms
      some { h with graph := g, terms, added := h.added ++ [(t, id)] }
  | .merge a b =>
    let merged := if egValid h.graph a ∧ egValid h.graph b then h.merged ++ [(termAt h.terms a, termAt h.terms b)]
      else h.merged
    some { h with graph := (egMerge h.graph a b).2, merged }
  | .rebuild => (egRebuild fuel h.graph).map fun g => { h with graph := g }

def runCalls (fuel : Nat) : History → List Call → Option History
  | h, [] => some h
  | h, call :: calls => (callStep fuel h call).bind fun h => runCalls fuel h calls

/-- What holds between calls. -/
structure History.Ok (h : History) : Prop extends Kept h.graph h.terms h.merged where
  given : ∀ p ∈ h.added, p.2 < h.graph.parent.length ∧ Cong h.merged p.1 (termAt h.terms p.2)
  all : ∀ c < h.graph.parent.length, (termAt h.terms c, c) ∈ h.added

theorem noHistory_ok : noHistory.Ok where
  stored := by
    refine ⟨⟨fun x hx => ?_, fun x => ⟨0, x, .root rfl⟩⟩, rfl, rfl, fun i n hn => ?_, fun i n hn => ?_, fun i c => ?_,
      fun c => List.nodup_nil, fun i n j hn => ?_⟩
    · cases hx
    · cases hn
    · cases hn
    · constructor
      · intro h
        cases h
      · rintro ⟨n, hn, -⟩
        cases hn
    · cases hn
  meant := by
    refine ⟨rfl, fun a ha => ?_, fun i n hn => ?_, fun p hp => ?_, fun c hc => ?_⟩
    · cases ha
    · cases hn
    · cases hp
    · cases hc
  keyed := by
    refine ⟨fun key j hj => ?_, fun i hi => ?_, fun i hi => ?_⟩
    · cases hj
    · cases hi
    · cases hi
  canonical := fun _ i n hn => by cases hn
  given := fun p hp => by cases hp
  all := fun c hc => by cases hc

/-- The key of a new node is canonical. -/
theorem Canonical.added (h : Canonical g) (hg : Stored g) {op data : Int} {kids : List Nat}
    (ha : Added g g' op data (kids.map (root g.parent))) : Canonical g' := by
  rw [Canonical, show root g'.parent = root g.parent from funext ha.root]
  intro i n hn hlive
  obtain ⟨new, hnew, -, -, hkids, -, -⟩ := ha.new
  have hi : i < g.nodes.length + 1 := by
    rw [← ha.count]
    exact (List.getElem?_eq_some_iff.mp hn).1
  rcases Nat.lt_succ_iff_lt_or_eq.mp hi with hi | rfl
  · rw [ha.old i hi] at hn
    exact h i n hn hlive
  · rw [hnew] at hn
    obtain rfl := Option.some.inj hn
    rw [hkids, List.map_map]
    exact List.map_congr_left fun x _ => hg.grove.root_root x

theorem Kept.same (h : Kept g ts E) (hs : Same g g') : Kept g' ts E where
  stored := hs.stored h.stored
  meant := h.meant.same hs
  keyed := by
    rw [hs.nodes]
    exact h.keyed.same hs
  canonical := fun hw => by
    rw [hs.worklist] at hw
    exact (h.canonical hw).same hs

theorem Kept.added (h : Kept g ts E) {op data : Int} {kids : List Nat} (hkids : ∀ k ∈ kids, egValid g k)
    (ha : Added g g' op data (kids.map (root g.parent))) :
    Kept g' (ts ++ [.mk (op, data) (kids.map (termAt ts))]) E where
  stored := ha.stored
  meant := h.meant.added h.stored hkids ha
  keyed := ha.keyed
  canonical := fun hw => by
    rw [ha.worklist] at hw
    exact (h.canonical hw).added h.stored ha

theorem Kept.merge (h : Kept g ts E) {a b : Nat} (ha : egValid g a) (hb : egValid g b) :
    Kept (egMerge g a b).2 ts (E ++ [(termAt ts a, termAt ts b)]) where
  stored := by
    rcases egMerge_spec h.stored ha hb with ⟨-, -, hs⟩ | ⟨-, -, p, q, -, hm⟩
    · exact hs.stored h.stored
    · exact hm.stored
  meant := h.meant.merge h.stored ha hb
  keyed := by
    rcases egMerge_spec h.stored ha hb with ⟨-, -, hs⟩ | ⟨-, -, p, q, -, hm⟩
    · rw [hs.nodes]
      exact h.keyed.same hs
    · rw [hm.stored.nodes, hm.length, ← h.stored.nodes]
      exact h.keyed.merged h.stored hm
  canonical := fun hw => by
    rcases egMerge_spec h.stored ha hb with ⟨-, -, hs⟩ | ⟨-, -, p, q, -, hm⟩
    · rw [hs.worklist] at hw
      exact (h.canonical hw).same hs
    · rw [hm.worklist] at hw
      exact absurd hw (List.append_ne_nil_of_right_ne_nil _ (List.cons_ne_nil _ _))

/-- The class of a node found means the term asked for. -/
theorem Kept.found_cong (h : Kept g ts E) {i : Nat} {n : EgNode} (hn : g.nodes[i]? = some n) {kids : List Nat}
    (hkids : ∀ k ∈ kids, egValid g k) (hroots : n.kids = kids.map (root g.parent)) :
    Cong E (.mk (n.op, n.data) (kids.map (termAt ts))) (termAt ts n.cls) := by
  refine .trans (.app _ ?_) (h.meant.nodes_sound i n hn).symm
  rw [hroots, List.map_map, List.forall₂_map_left_iff, List.forall₂_map_right_iff, List.forall₂_same]
  intro x hx
  exact h.meant.classes_sound x (hkids x hx) _ (h.stored.grove.root_lt (hkids x hx)) (h.stored.grove.root_root x).symm

/-- **One call** keeps the parts together, and ends. -/
theorem callStep_ok {h : History} (hok : h.Ok) (call : Call) :
    ∃ h', Settles (fun fuel => callStep fuel h call) h' ∧ h'.Ok ∧
      (call = .rebuild → h'.graph.worklist = []) := by
  cases call with
  | rebuild =>
    obtain ⟨g', hsettles, hkept, hw⟩ := rebuild_settles hok.toKept
    refine ⟨{ h with graph := g' }, hsettles.map _, ?_, fun _ => hw⟩
    have hlen : g'.parent.length = h.graph.parent.length := by
      rw [← hkept.meant.count, hok.meant.count]
    refine { hkept with given := ?_, all := ?_ }
    · rw [hlen]
      exact hok.given
    · rw [hlen]
      exact hok.all
  | merge a b =>
    refine ⟨{ h with
      graph := (egMerge h.graph a b).2
      merged := if egValid h.graph a ∧ egValid h.graph b then h.merged ++ [(termAt h.terms a, termAt h.terms b)]
        else h.merged }, .const _, ?_, fun hcall => by cases hcall⟩
    by_cases hvalid : egValid h.graph a ∧ egValid h.graph b
    · have hkept := hok.toKept.merge hvalid.1 hvalid.2
      have hlen : (egMerge h.graph a b).2.parent.length = h.graph.parent.length := by
        rw [← hkept.meant.count, hok.meant.count]
      rw [if_pos hvalid]
      refine { hkept with given := fun p hp => ?_, all := ?_ }
      · rw [hlen]
        obtain ⟨hlt, hcong⟩ := hok.given p hp
        exact ⟨hlt, hcong.mono (List.subset_append_left _ _)⟩
      · rw [hlen]
        exact hok.all
    · have hsame : (egMerge h.graph a b).2 = h.graph := by
        unfold egMerge
        rw [if_neg hvalid]
      rw [if_neg hvalid, hsame]
      exact hok
  | add op data kids =>
    by_cases hkids : ∀ k ∈ kids, egValid h.graph k
    · rcases egAdd_spec hok.stored hok.keyed op data hkids with
        ⟨i, n, hn, hlive, rfl, rfl, hroots, hret, hs⟩ | ⟨-, hret, ha⟩
      · have hcls := (hok.stored.cls i n hn).1
        have hold : n.cls ≠ h.terms.length := by
          rw [hok.meant.count]
          exact ne_of_lt hcls
        have hstep : ∀ fuel, callStep fuel h (.add n.op n.data kids) = some { h with
            graph := (egAdd h.graph n.op n.data kids).2
            added := h.added ++ [(.mk (n.op, n.data) (kids.map (termAt h.terms)), n.cls)] } := by
          intro fuel
          unfold callStep
          dsimp only
          generalize egAdd h.graph n.op n.data kids = r at hret ⊢
          obtain ⟨ret, g'⟩ := r
          dsimp only at hret
          subst hret
          dsimp only
          rw [if_neg hold]
        refine ⟨_, .of_forall hstep, ?_, fun hcall => by cases hcall⟩
        refine { hok.toKept.same hs with given := fun p hp => ?_, all := fun c hc => ?_ }
        · rw [hs.halved.length]
          rcases List.mem_append.mp hp with hp | hp
          · exact hok.given p hp
          · obtain rfl := List.mem_singleton.mp hp
            exact ⟨hcls, hok.toKept.found_cong hn hkids hroots⟩
        · rw [hs.halved.length] at hc
          exact List.mem_append_left _ (hok.all c hc)
      · have hstep : ∀ fuel, callStep fuel h (.add op data kids) = some { h with
            graph := (egAdd h.graph op data kids).2
            terms := h.terms ++ [.mk (op, data) (kids.map (termAt h.terms))]
            added := h.added ++ [(.mk (op, data) (kids.map (termAt h.terms)), h.graph.parent.length)] } := by
          intro fuel
          unfold callStep
          dsimp only
          generalize egAdd h.graph op data kids = r at hret ⊢
          obtain ⟨ret, g'⟩ := r
          dsimp only at hret
          subst hret
          dsimp only
          rw [if_pos hok.meant.count.symm]
        have hold : ∀ k < h.graph.parent.length,
            termAt (h.terms ++ [.mk (op, data) (kids.map (termAt h.terms))]) k = termAt h.terms k := fun k hk =>
          termAt_append _ (by rw [hok.meant.count]; exact hk)
        have hnew : termAt (h.terms ++ [.mk (op, data) (kids.map (termAt h.terms))]) h.graph.parent.length =
            .mk (op, data) (kids.map (termAt h.terms)) := by
          rw [← hok.meant.count, termAt_last]
        refine ⟨_, .of_forall hstep, ?_, fun hcall => by cases hcall⟩
        refine { hok.toKept.added hkids ha with given := fun p hp => ?_, all := fun c hc => ?_ }
        · rw [ha.length]
          rcases List.mem_append.mp hp with hp | hp
          · obtain ⟨hlt, hcong⟩ := hok.given p hp
            refine ⟨Nat.lt_succ_of_lt hlt, ?_⟩
            rw [hold _ hlt]
            exact hcong
          · obtain rfl := List.mem_singleton.mp hp
            refine ⟨Nat.lt_succ_self _, ?_⟩
            dsimp only
            rw [hnew]
            exact .refl _
        · rw [ha.length] at hc
          rcases Nat.lt_succ_iff_lt_or_eq.mp hc with hc | rfl
          · rw [hold c hc]
            exact List.mem_append_left _ (hok.all c hc)
          · rw [hnew]
            exact List.mem_append_right _ List.mem_cons_self
    · have hstep : ∀ fuel, callStep fuel h (.add op data kids) = some h := by
        intro fuel
        unfold callStep egAdd
        dsimp only
        rw [if_neg hkids]
      exact ⟨_, .of_forall hstep, hok, fun hcall => by cases hcall⟩

theorem runCalls_append (fuel : Nat) (h : History) (calls : List Call) (call : Call) :
    runCalls fuel h (calls ++ [call]) = (runCalls fuel h calls).bind fun h => callStep fuel h call := by
  induction calls generalizing h with
  | nil =>
    simp only [List.nil_append, runCalls, Option.bind_some]
    exact Option.bind_fun_some _
  | cons first calls ih =>
    rw [List.cons_append, runCalls, runCalls, Option.bind_assoc]
    congr 1
    funext h'
    exact ih h'

theorem runCalls_ok {h : History} (hok : h.Ok) (calls : List Call) :
    ∃ h', Settles (fun fuel => runCalls fuel h calls) h' ∧ h'.Ok := by
  induction calls generalizing h with
  | nil => exact ⟨h, .const h, hok⟩
  | cons call calls ih =>
    obtain ⟨h₁, hstep, hok₁, -⟩ := callStep_ok hok call
    obtain ⟨h₂, hrest, hok₂⟩ := ih hok₁
    exact ⟨h₂, hstep.bind hrest, hok₂⟩

/-- The graph decides the congruence of what was added, and is in order. -/
structure Decided (h : History) : Prop where
  finds : ∀ a b, egValid h.graph a → egValid h.graph b →
    ((egFind h.graph a).1 = (egFind h.graph b).1 ↔ Cong h.merged (termAt h.terms a) (termAt h.terms b))
  keys : ∀ (i j : Nat) (n n' : EgNode), h.graph.nodes[i]? = some n → h.graph.nodes[j]? = some n' → n.live = true →
    n'.live = true → n.op = n'.op → n.data = n'.data →
      (findAll h.graph n.kids).1 = (findAll h.graph n'.kids).1 → i = j
  canonical : ∀ (i : Nat) (n : EgNode), h.graph.nodes[i]? = some n → n.live = true →
    ∀ k ∈ n.kids, (egFind h.graph k).1 = k
  listed : ∀ (i : Nat) (n : EgNode), h.graph.nodes[i]? = some n → n.live = true →
    (egFind h.graph n.cls).1 = n.cls ∧ ∀ c, (nodeIdx h.graph c).count i = if c = n.cls then 1 else 0
  /-- The terms of the ids were all added, and every added term is found again. -/
  all : ∀ c, egValid h.graph c → (termAt h.terms c, c) ∈ h.added
  found : ∀ t c, (t, c) ∈ h.added → egValid h.graph c ∧ Cong h.merged t (termAt h.terms c) ∧
    (addTerm h.graph t).1 = some (egFind h.graph c).1 ∧ (addTerm h.graph t).2.nodes = h.graph.nodes
  /-- So is any other term that a class represents. -/
  represented : ∀ t c, classOf h.graph t = some c →
    (addTerm h.graph t).1 = some c ∧ (addTerm h.graph t).2.nodes = h.graph.nodes

theorem History.Ok.decided {h : History} (hok : h.Ok) (hw : h.graph.worklist = []) : Decided h := by
  have hclosed : Closed h.graph h.terms h.merged := { hok.toKept with done := hw }
  have hcanonical : ∀ (i : Nat) (n : EgNode), h.graph.nodes[i]? = some n → n.live = true →
      (findAll h.graph n.kids).1 = n.kids := fun i n hn hlive => by
    rw [(findAll_spec hok.stored.grove n.kids).1]
    exact hok.canonical hw i n hn hlive
  refine ⟨fun a b ha hb => hclosed.root_iff ha hb, fun i j n n' hn hn' hlive hlive' hop hdata hkids => ?_,
    fun i n hn hlive k hk => ?_, fun i n hn hlive => ⟨hok.stored.root_cls hn, fun c => ?_⟩, hok.all,
    fun t c htc => ?_, fun t c hc => ?_⟩
  · rw [hcanonical i n hn hlive, hcanonical j n' hn' hlive'] at hkids
    exact hok.keyed.apart i (List.getElem?_eq_some_iff.mp hn).1 j (List.getElem?_eq_some_iff.mp hn').1 n n' hn hn' hlive
      hlive' hop hdata hkids
  · have hmap := hok.canonical hw i n hn hlive
    nth_rewrite 2 [← List.map_id n.kids] at hmap
    exact List.map_inj_left.mp hmap k hk
  · have hmem : i ∈ nodeIdx h.graph c ↔ c = n.cls := by
      rw [hok.stored.listed]
      constructor
      · rintro ⟨n', hn', rfl⟩
        rw [hn] at hn'
        rw [Option.some.inj hn']
      · rintro rfl
        exact ⟨n, hn, rfl⟩
    rw [List.Nodup.count (hok.stored.once c)]
    simp only [hmem]
  · obtain ⟨hlt, hcong⟩ := hok.given (t, c) htc
    have hclass := hclosed.classOf_cong hcong
    rw [hclosed.classOf_termAt c hlt] at hclass
    obtain ⟨hret, hs⟩ := hclosed.addTerm_found t _ hclass
    exact ⟨hlt, hcong, hret, hs.nodes⟩
  · obtain ⟨hret, hs⟩ := hclosed.addTerm_found t c hc
    exact ⟨hret, hs.nodes⟩

/-- **The e-graph decides congruence**, after any calls that a rebuild ends. -/
theorem decides (calls : List Call) :
    ∃ h, Settles (fun fuel => runCalls fuel noHistory (calls ++ [.rebuild])) h ∧ Decided h := by
  obtain ⟨h, hrun, hok⟩ := runCalls_ok noHistory_ok calls
  obtain ⟨h', hstep, hok', hw⟩ := callStep_ok hok .rebuild
  refine ⟨h', ?_, hok'.decided (hw rfl)⟩
  simp only [runCalls_append]
  exact hrun.bind hstep

/-- `f(a)` and `f(b)` share a class once `a` and `b` do, and `f(b)` is found again. -/
example : (runCalls 3 noHistory [.add 1 0 [], .add 2 0 [], .add 3 0 [0], .add 3 0 [1], .merge 0 1, .rebuild,
    .add 3 0 [1]]).map (fun h => ((findAll h.graph [2, 3]).1, h.graph.nodes.length, h.added.map Prod.snd)) =
      some ([2, 2], 4, [0, 1, 2, 3, 2]) := by
  decide +kernel

end Bbq.Egraph
