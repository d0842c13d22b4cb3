import Bbq.Egraph.Graph
import Bbq.Egraph.Find

/-!
# Facts of classes

`burgc/runtime/egraph.c` with an analysis (`eg_set_analysis`), called before the first `eg_add`. A class has
one fact.

* A fact is a value of a type `D`, and `memcmp` is its equality. The consumer's hooks are the fields of
  `EgAnalysis`.
* `modify` gives the whole effect of a call: what it adds and merges, and what the `modify` of these does in
  turn. An analysis without it has the one that leaves everything as it is.
* An analysis may go on for ever in `eg_rebuild`, which therefore runs on fuel.
-/

namespace Bbq.Egraph

open Bbq.Lib

variable {D : Type}

/-- `egraph` with `class_data`. -/
structure Analysed (D : Type) where
  graph : EGraph
  class_data : List D

/-- `eg_analysis`. -/
structure EgAnalysis (D : Type) where
  /-- The bytes a fact begins with. -/
  zero : D
  make : Analysed D → Int → Int → List Nat → D
  join : D → D → D
  modify : Analysed D → Nat → D → Analysed D

variable (an : EgAnalysis D)

/-- The slot of a class. -/
def factAt (s : Analysed D) (c : Nat) : D := s.class_data.getD c an.zero

/-- `eg_add` as far as `make`. -/
def addNode (s : Analysed D) (op data : Int) (kids : List Nat) : Option Nat × Analysed D :=
  let (id, graph) := egAdd s.graph op data kids
  if graph.nodes.length = s.graph.nodes.length then (id, { s with graph })
  else
    let fact := an.make { graph, class_data := s.class_data ++ [an.zero] } op data (findAll s.graph kids).1
    (id, { graph, class_data := s.class_data ++ [fact] })

/-- `eg_add`. -/
def addFact (s : Analysed D) (op data : Int) (kids : List Nat) : Option Nat × Analysed D :=
  match addNode an s op data kids with
  | (some cls, s') =>
    if s'.graph.nodes.length = s.graph.nodes.length then (some cls, s')
    else (some cls, an.modify s' cls (factAt an s' cls))
  | (none, s') => (none, s')

/-- `eg_merge`: the fact of the class that is left is the join of both. -/
def mergeFact (s : Analysed D) (a b : Nat) : Bool × Analysed D :=
  match egMerge s.graph a b with
  | (false, graph) => (false, { s with graph })
  | (true, graph) =>
    let survivor := root graph.parent a
    let absorbed := if survivor = root s.graph.parent a then root s.graph.parent b else root s.graph.parent a
    let joined := an.join (factAt an s survivor) (factAt an s absorbed)
    (true, { graph, class_data := s.class_data.set survivor joined })

/-! ## `eg_rebuild` -/

/-- The body of the second loop, with the facts joined. -/
def rekeyFacts (s : Analysed D) (i : Nat) : Analysed D :=
  match s.graph.nodes[i]? with
  | none => s
  | some n =>
    if n.live then
      let h := nodeHash n.op n.data n.kids
      let (found, graph) := hashconsLookup s.graph n.op n.data n.kids h
      match found with
      | some other =>
        let (mine, graph) := egFind graph (clsOf graph i)
        let s := { s with graph }
        let s := if other ≠ mine then (mergeFact an s other mine).2 else s
        { s with graph := modifyNode s.graph i fun n => { n with live := false } }
      | none => { s with graph := hashconsInsert graph i h }
    else s

/-- The two loops of one turn of `eg_rebuild`. -/
def repairRound (s : Analysed D) : Analysed D :=
  let graph : EGraph := { s.graph with worklist := [], hashcons := fun _ => none }
  let graph := (List.range graph.nodes.length).foldl recanonicalise graph
  (List.range graph.nodes.length).foldl (rekeyFacts an) { s with graph }

section Restore

variable [DecidableEq D]

/-- The body of the sweep of `analysis_restore`: the fact of node `i` joins that of its class. -/
def restoreNode : Analysed D × Bool → Nat → Analysed D × Bool
  | (s, changed), i =>
    match s.graph.nodes[i]? with
    | none => (s, changed)
    | some n =>
      if n.live then
        let (c, graph) := egFind s.graph n.cls
        let s := { s with graph }
        let joined := an.join (factAt an s c) (an.make s n.op n.data n.kids)
        if factAt an s c = joined then (s, changed)
        else ({ s with class_data := s.class_data.set c joined }, true)
      else (s, changed)

/-- The sweeps. -/
def restoreFacts : Nat → Analysed D → Analysed D
  | 0, s => s
  | rounds + 1, s =>
    let (s, changed) := (List.range s.graph.nodes.length).foldl (restoreNode an) (s, false)
    if changed then restoreFacts rounds s else s

/-- `modify` of class `c`, where there is such a class and it is its own root. -/
def modifyClass : Nat × Analysed D → Nat × Analysed D ⊕ Analysed D
  | (c, s) =>
    if c < s.graph.classes.length then
      let (r, graph) := egFind s.graph c
      let s := { s with graph }
      .inl (c + 1, if r = c then an.modify s c (factAt an s c) else s)
    else .inr s

/-- `analysis_restore`. -/
def analysisRestore (fuel : Nat) (s : Analysed D) : Option (Analysed D) :=
  loop (fun cs => some (modifyClass an cs)) fuel (0, restoreFacts an 64 s)

/-- `eg_rebuild`. -/
def rebuildFacts (fuel : Nat) (s : Analysed D) : Option (Analysed D) :=
  loop (fun s =>
    if s.graph.worklist = [] then some (.inr s)
    else (analysisRestore an fuel (repairRound an s)).map .inl) fuel s

end Restore

/-! ## The graph below the facts -/

theorem mergeFact_graph (s : Analysed D) (a b : Nat) :
    (mergeFact an s a b).1 = (egMerge s.graph a b).1 ∧
      (mergeFact an s a b).2.graph = (egMerge s.graph a b).2 := by
  unfold mergeFact
  generalize egMerge s.graph a b = r
  obtain ⟨merged, graph⟩ := r
  cases merged with
  | false => exact ⟨rfl, rfl⟩
  | true => exact ⟨rfl, rfl⟩

theorem addNode_graph (s : Analysed D) (op data : Int) (kids : List Nat) :
    (addNode an s op data kids).1 = (egAdd s.graph op data kids).1 ∧
      (addNode an s op data kids).2.graph = (egAdd s.graph op data kids).2 := by
  unfold addNode
  generalize egAdd s.graph op data kids = r
  obtain ⟨id, graph⟩ := r
  dsimp only
  split
  · exact ⟨rfl, rfl⟩
  · exact ⟨rfl, rfl⟩

theorem rekeyFacts_graph (s : Analysed D) (i : Nat) : (rekeyFacts an s i).graph = rekey s.graph i := by
  unfold rekeyFacts rekey
  cases s.graph.nodes[i]? with
  | none => rfl
  | some n =>
    dsimp only
    split
    · generalize hashconsLookup s.graph n.op n.data n.kids (nodeHash n.op n.data n.kids) = r
      obtain ⟨found, graph⟩ := r
      cases found with
      | none => rfl
      | some other =>
        dsimp only
        split
        · rw [(mergeFact_graph an _ _ _).2]
        · rfl
    · rfl

theorem repairRound_graph (s : Analysed D) : (repairRound an s).graph = rebuildRound s.graph := by
  have hfold : ∀ (l : List Nat) (s : Analysed D),
      (l.foldl (rekeyFacts an) s).graph = l.foldl rekey s.graph := by
    intro l
    induction l with
    | nil => exact fun s => rfl
    | cons i l ih =>
      intro s
      rw [List.foldl_cons, List.foldl_cons, ih, rekeyFacts_graph an]
  unfold repairRound rebuildRound
  exact hfold _ _

end Bbq.Egraph
