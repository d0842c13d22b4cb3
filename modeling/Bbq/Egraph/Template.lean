import Bbq.Egraph.Grow
import Bbq.Egraph.Rewriter

/-!
# Instances of templates

`stands` reads off a graph the class of the instance of a template, adding nothing. `build_sees` compares
`emit_build` with it. Where the building merges nothing, either the instance stands and finds are all that
is done, or the graph has grown, and then the instance is in a new class, if the template applies no helper
to a node it builds (`plain`).
-/

namespace Bbq.Egraph

variable {D : Type}

/-- Graphs that only finds tell apart. -/
structure Alike (s s' : Analysed D) : Prop where
  same : Same s.graph s'.graph
  data : s'.class_data = s.class_data

theorem Alike.trans {s s' s'' : Analysed D} (h : Alike s s') (h' : Alike s' s'') : Alike s s'' :=
  ⟨h.same.trans h'.same, h'.data.trans h.data⟩

theorem Alike.view {s s' : Analysed D} (h : Alike s s') : view s' = view s := by
  have hroot : root s'.graph.parent = root s.graph.parent := funext h.same.halved.root
  unfold Egraph.view
  rw [h.same.halved.length, hroot, h.same.nodes, h.same.classes, h.data]

theorem Alike.liveNodes {s s' : Analysed D} (h : Alike s s') (cls : Option Nat) :
    liveNodes s'.graph cls = liveNodes s.graph cls := by
  cases cls with
  | none => rfl
  | some cls =>
    have hvalid : egValid s'.graph cls ↔ egValid s.graph cls := by
      unfold egValid
      rw [h.same.halved.length]
    simp only [Egraph.liveNodes, nodeIdx, hvalid, h.same.halved.root, h.same.nodes, h.same.classes]

theorem Alike.classLiveNode {s s' : Analysed D} (h : Alike s s') (cls : Option Nat) (i : Nat) :
    classLiveNode s'.graph cls i = classLiveNode s.graph cls i := by
  unfold Egraph.classLiveNode
  rw [h.liveNodes, h.same.nodes]

section Stands

variable (aux : String → View D → List (Option Nat) → Option Nat)

mutual

/-- The class of the instance of a template for a node of class `c` with `data`. -/
def stands (s : Analysed D) (c : Nat) (data : Int) (env : Env) : RewriteTmpl → Option Nat
  | .binder name => env name
  | .matched => some c
  | .node op ts => (standsAll s c data env ts).bind fun ids => nodeClass s.graph op data (ids.map (root s.graph.parent))
  | .helper name ts => (standsAll s c data env ts).bind fun ids => aux name (view s) (ids.map some)

def standsAll (s : Analysed D) (c : Nat) (data : Int) (env : Env) : List RewriteTmpl → Option (List Nat)
  | [] => some []
  | t :: ts => (stands s c data env t).bind fun id => (standsAll s c data env ts).map (id :: ·)

end

mutual

theorem stands_alike {s s' : Analysed D} (h : Alike s s') (c : Nat) (data : Int) (env : Env) :
    ∀ t, stands aux s' c data env t = stands aux s c data env t
  | .binder name => by
    unfold stands
    rfl
  | .matched => by
    unfold stands
    rfl
  | .node op ts => by
    have hroot : root s'.graph.parent = root s.graph.parent := funext h.same.halved.root
    unfold stands
    rw [standsAll_alike h c data env ts]
    congr 1
    funext ids
    rw [nodeClass_same h.same, hroot]
  | .helper name ts => by
    unfold stands
    rw [standsAll_alike h c data env ts, h.view]

theorem standsAll_alike {s s' : Analysed D} (h : Alike s s') (c : Nat) (data : Int) (env : Env) :
    ∀ ts, standsAll aux s' c data env ts = standsAll aux s c data env ts
  | [] => by
    unfold standsAll
    rfl
  | t :: ts => by
    unfold standsAll
    rw [stands_alike h c data env t, standsAll_alike h c data env ts]

end

end Stands

mutual

/-- The template builds no node. -/
def bare : RewriteTmpl → Bool
  | .binder _ => true
  | .matched => true
  | .node _ _ => false
  | .helper _ ts => bareAll ts

def bareAll : List RewriteTmpl → Bool
  | [] => true
  | t :: ts => bare t && bareAll ts

end

mutual

/-- No helper is applied to a node that the template builds. -/
def plain : RewriteTmpl → Bool
  | .binder _ => true
  | .matched => true
  | .node _ ts => plainAll ts
  | .helper _ ts => bareAll ts

def plainAll : List RewriteTmpl → Bool
  | [] => true
  | t :: ts => plain t && plainAll ts

end

/-! ## Building -/

variable {an : EgAnalysis D} {aux : String → View D → List (Option Nat) → Option Nat} {s₀ s : Analysed D}

/-- An auxiliary takes classes and gives a class. -/
def Gives (aux : String → View D → List (Option Nat) → Option Nat) : Prop :=
  ∀ (name : String) (v : View D) (ids : List Nat), 0 < v.count → (∀ id ∈ ids, id < v.count) →
    ∃ id, aux name v (ids.map some) = some id ∧ id < v.count

theorem addFact_after (han : Contract an) (hs : Whole s.graph) (op data : Int) (kids : List Nat) :
    Onward s.graph (addFact an s op data kids).2.graph :=
  (Onward.add hs op data kids).trans (addFact_onward han hs op data kids).1

theorem addNodeOf_after (han : Contract an) (hs : Whole s.graph) (op data : Int) (kids : List (Option Nat)) :
    Onward s.graph (addNodeOf an s op data kids).2.graph := by
  unfold addNodeOf
  split
  · exact .refl hs
  · exact addFact_after han hs op data _

mutual

theorem build_after (han : Contract an) (c n0 : Nat) (env : Env) : ∀ (t : RewriteTmpl) {s : Analysed D},
    Whole s.graph → Onward s.graph (build an aux c n0 env t s).2.graph
  | .binder name, s, hs => by
    unfold build
    exact .refl hs
  | .matched, s, hs => by
    unfold build
    exact .refl hs
  | .node op ts, s, hs => by
    have hkids := builds_after han c n0 env ts hs
    unfold build
    exact hkids.trans (addNodeOf_after han hkids.whole op _ _)
  | .helper name ts, s, hs => by
    unfold build
    exact builds_after han c n0 env ts hs

theorem builds_after (han : Contract an) (c n0 : Nat) (env : Env) : ∀ (ts : List RewriteTmpl) {s : Analysed D},
    Whole s.graph → Onward s.graph (builds an aux c n0 env ts s).2.graph
  | [], s, hs => by
    unfold builds
    exact .refl hs
  | t :: ts, s, hs => by
    have hfirst := build_after han c n0 env t hs
    unfold builds
    exact hfirst.trans (builds_after han c n0 env ts hfirst.whole)

end

/-- `eg_add` finds the node where the graph has not changed, or gives a new class. A node over a new class
is in a new class too. -/
theorem addFact_sees (han : Contract an) (h₀ : Whole s₀.graph) (hs : Whole s.graph) (hgrown : Grown s₀.graph s.graph)
    (op data : Int) {ids : List Nat} (hids : ∀ id ∈ ids, egValid s.graph id)
    (hw : (addFact an s op data ids).2.graph.worklist = []) :
    ∃ id, (addFact an s op data ids).1 = some id ∧ id < (addFact an s op data ids).2.graph.parent.length ∧
      (Alike s₀ s → Alike s₀ (addFact an s op data ids).2 ∧
          nodeClass s₀.graph op data (ids.map (root s₀.graph.parent)) = some id ∨
        s₀.graph.nodes.length < (addFact an s op data ids).2.graph.nodes.length ∧ s₀.graph.parent.length ≤ id) ∧
      ((∃ id' ∈ ids, s₀.graph.parent.length ≤ id') → s₀.graph.parent.length ≤ id) := by
  obtain ⟨honward, hidle⟩ := addFact_onward han hs op data ids
  have hlater := honward.grown hw
  rw [addFact_fst]
  rcases egAdd_spec hs.stored hs.keyed op data hids with ⟨i, n, hn, hlive, rfl, rfl, hkids, hret, hsame⟩ |
    ⟨-, hret, hadded⟩
  · have hcount : (egAdd s.graph n.op n.data ids).2.nodes.length = s.graph.nodes.length := by rw [hsame.nodes]
    have hstate := hidle hcount
    refine ⟨n.cls, hret, ?_, fun halike => .inl ⟨?_, ?_⟩, ?_⟩
    · rw [hstate]
      dsimp only
      rw [hsame.halved.length]
      exact (hs.stored.cls i n hn).1
    · rw [hstate]
      exact halike.trans ⟨hsame, rfl⟩
    · have hroot : root s.graph.parent = root s₀.graph.parent := funext halike.same.halved.root
      rw [← nodeClass_same halike.same, ← hroot, ← hkids]
      exact nodeClass_eq hs.keyed hn hlive
    · rintro ⟨id', hid', hnew⟩
      -- an old node has old children
      have hmem : root s.graph.parent id' ∈ n.kids := by
        rw [hkids]
        exact List.mem_map_of_mem hid'
      have hbeyond := hgrown.new id' hnew
      rcases lt_or_ge i s₀.graph.nodes.length with hlt | hge
      · rw [hgrown.nodes i hlt] at hn
        exact absurd (h₀.stored.kids i n hn _ hmem) (not_lt.mpr hbeyond)
      · exact hgrown.fresh i n hge hn
  · have hnew : s₀.graph.parent.length ≤ s.graph.parent.length := hgrown.length
    refine ⟨s.graph.parent.length, hret, ?_, fun _ => .inr ⟨?_, hnew⟩, fun _ => hnew⟩
    · refine lt_of_lt_of_le ?_ hlater.2.length
      rw [hadded.length]
      exact Nat.lt_succ_self _
    · refine lt_of_lt_of_le ?_ honward.count
      rw [hadded.count]
      exact Nat.lt_succ_of_le hgrown.count

theorem addNodeOf_some (s : Analysed D) (op data : Int) (ids : List Nat) :
    addNodeOf an s op data (ids.map some) = addFact an s op data ids := by
  have hnone : none ∉ ids.map some := by simp
  have hids : (ids.map some).filterMap (fun k => k) = ids := by
    rw [List.filterMap_map]
    exact List.filterMap_some
  unfold addNodeOf
  rw [if_neg hnone, hids]

mutual

/-- **Building** from a graph that has at most grown, where nothing is merged. -/
theorem build_sees (han : Contract an) (haux : Gives aux) (h₀ : Whole s₀.graph) {c : Nat} (n0 : Nat) {env : Env}
    (hc : c < s₀.graph.parent.length) (henv : ∀ name id, env name = some id → id < s₀.graph.parent.length) :
    ∀ (t : RewriteTmpl) {s : Analysed D}, (∀ name ∈ references t, ∃ id, env name = some id) →
    Whole s.graph → Grown s₀.graph s.graph → (build an aux c n0 env t s).2.graph.worklist = [] →
    ∃ id, (build an aux c n0 env t s).1 = some id ∧ id < (build an aux c n0 env t s).2.graph.parent.length ∧
      (Alike s₀ s →
        Alike s₀ (build an aux c n0 env t s).2 ∧
            stands aux s₀ c (egClassNodeData s₀.graph (some c) n0) env t = some id ∨
          s₀.graph.nodes.length < (build an aux c n0 env t s).2.graph.nodes.length ∧ bare t = false ∧
            (plain t = true → s₀.graph.parent.length ≤ id))
  | .binder name, s, hbound, hs, hgrown, hw => by
    obtain ⟨id, hid⟩ := hbound name (by simp [references])
    unfold build stands
    exact ⟨id, hid, lt_of_lt_of_le (henv name id hid) hgrown.length, fun halike => .inl ⟨halike, hid⟩⟩
  | .matched, s, hbound, hs, hgrown, hw => by
    unfold build stands
    exact ⟨c, rfl, lt_of_lt_of_le hc hgrown.length, fun halike => .inl ⟨halike, rfl⟩⟩
  | .node op ts, s, hbound, hs, hgrown, hw => by
    have hafter : Onward s.graph (builds an aux c n0 env ts s).2.graph := builds_after han c n0 env ts hs
    have hsees := builds_sees han haux h₀ n0 hc henv ts (s := s) hbound hs hgrown
    unfold build at hw ⊢
    unfold stands
    generalize builds an aux c n0 env ts s = r at hafter hsees hw ⊢
    obtain ⟨kids, s₁⟩ := r
    dsimp only at hafter hsees hw ⊢
    have hadd := addNodeOf_after han hafter.whole op (egClassNodeData s₁.graph (some c) n0) kids
    obtain ⟨ids, rfl, hvalid, hkids⟩ := hsees (hadd.grown hw).1
    rw [addNodeOf_some] at hadd hw ⊢
    have hgrown₁ := hgrown.trans (hafter.grown (hadd.grown hw).1).2
    obtain ⟨id, hret, hid, hnode, hover⟩ := addFact_sees han h₀ hafter.whole hgrown₁ op _ hvalid hw
    refine ⟨id, hret, hid, fun halike => ?_⟩
    rcases hkids halike with ⟨halike₁, hstands⟩ | ⟨hcount, -, hnew⟩
    · rcases hnode halike₁ with ⟨halike₂, hclass⟩ | ⟨hcount, hnew⟩
      · refine .inl ⟨halike₂, ?_⟩
        rw [hstands, Option.bind_some, ← hclass]
        unfold egClassNodeData
        rw [halike₁.classLiveNode]
      · exact .inr ⟨hcount, rfl, fun _ => hnew⟩
    · exact .inr ⟨lt_of_lt_of_le hcount hadd.count, rfl, fun hplain => hover (hnew hplain)⟩
  | .helper name ts, s, hbound, hs, hgrown, hw => by
    have hafter : Onward s.graph (builds an aux c n0 env ts s).2.graph := builds_after han c n0 env ts hs
    have hsees := builds_sees han haux h₀ n0 hc henv ts (s := s) hbound hs hgrown
    unfold build at hw ⊢
    unfold stands
    generalize builds an aux c n0 env ts s = r at hafter hsees hw ⊢
    obtain ⟨kids, s₁⟩ := r
    dsimp only at hafter hsees hw ⊢
    obtain ⟨ids, rfl, hvalid, hkids⟩ := hsees hw
    have hgrown₁ := hgrown.trans (hafter.grown hw).2
    have hpos : 0 < (view s₁).count := lt_of_le_of_lt (Nat.zero_le c) (lt_of_lt_of_le hc hgrown₁.length)
    obtain ⟨id, hret, hid⟩ := haux name (view s₁) ids hpos hvalid
    refine ⟨id, hret, hid, fun halike => ?_⟩
    rcases hkids halike with ⟨halike₁, hstands⟩ | ⟨hcount, hbare, -⟩
    · refine .inl ⟨halike₁, ?_⟩
      rw [hstands, Option.bind_some, ← halike₁.view]
      exact hret
    · refine .inr ⟨hcount, hbare, fun hplain => ?_⟩
      unfold plain at hplain
      rw [hbare] at hplain
      cases hplain

theorem builds_sees (han : Contract an) (haux : Gives aux) (h₀ : Whole s₀.graph) {c : Nat} (n0 : Nat) {env : Env}
    (hc : c < s₀.graph.parent.length) (henv : ∀ name id, env name = some id → id < s₀.graph.parent.length) :
    ∀ (ts : List RewriteTmpl) {s : Analysed D},
    (∀ name ∈ referencesAll ts, ∃ id, env name = some id) →
    Whole s.graph → Grown s₀.graph s.graph → (builds an aux c n0 env ts s).2.graph.worklist = [] →
    ∃ ids : List Nat, (builds an aux c n0 env ts s).1 = ids.map some ∧
      (∀ id ∈ ids, id < (builds an aux c n0 env ts s).2.graph.parent.length) ∧
      (Alike s₀ s →
        Alike s₀ (builds an aux c n0 env ts s).2 ∧
            standsAll aux s₀ c (egClassNodeData s₀.graph (some c) n0) env ts = some ids ∨
          s₀.graph.nodes.length < (builds an aux c n0 env ts s).2.graph.nodes.length ∧ bareAll ts = false ∧
            (plainAll ts = true → ∃ id ∈ ids, s₀.graph.parent.length ≤ id))
  | [], s, hbound, hs, hgrown, hw => by
    unfold builds standsAll
    refine ⟨[], rfl, fun id hid => ?_, fun halike => .inl ⟨halike, rfl⟩⟩
    cases hid
  | t :: ts, s, hbound, hs, hgrown, hw => by
    have hfirst : Onward s.graph (build an aux c n0 env t s).2.graph := build_after han c n0 env t hs
    have hsee := build_sees han haux h₀ n0 hc henv t (s := s)
      (fun name hname => hbound name (List.mem_append_left _ hname)) hs hgrown
    unfold builds at hw ⊢
    unfold standsAll bareAll plainAll
    generalize build an aux c n0 env t s = r at hfirst hsee hw ⊢
    obtain ⟨ret, s₁⟩ := r
    dsimp only at hfirst hsee hw ⊢
    have hrest : Onward s₁.graph (builds an aux c n0 env ts s₁).2.graph := builds_after han c n0 env ts hfirst.whole
    obtain ⟨hw₁, hgrown₂⟩ := hrest.grown hw
    have hgrown₁ := hgrown.trans (hfirst.grown hw₁).2
    obtain ⟨id, rfl, hid, hhead⟩ := hsee hw₁
    obtain ⟨ids, hids, hvalid, htail⟩ := builds_sees han haux h₀ n0 hc henv ts (s := s₁)
      (fun name hname => hbound name (List.mem_append_right _ hname)) hfirst.whole hgrown₁ hw
    refine ⟨id :: ids, by rw [hids, List.map_cons], fun x hx => ?_, fun halike => ?_⟩
    · rcases List.mem_cons.mp hx with rfl | hx
      · exact lt_of_lt_of_le hid hgrown₂.length
      · exact hvalid x hx
    rcases hhead halike with ⟨halike₁, hstands⟩ | ⟨hcount, hbare, hnew⟩
    · rcases htail halike₁ with ⟨halike₂, hall⟩ | ⟨hcount, hbare, hnew⟩
      · refine .inl ⟨halike₂, ?_⟩
        rw [hstands, Option.bind_some, hall, Option.map_some]
      · refine .inr ⟨hcount, by rw [hbare, Bool.and_false], fun hplain => ?_⟩
        obtain ⟨x, hx, hbeyond⟩ := hnew (Bool.and_eq_true _ _ ▸ hplain).2
        exact ⟨x, List.mem_cons_of_mem _ hx, hbeyond⟩
    · refine .inr ⟨lt_of_lt_of_le hcount hrest.count, by rw [hbare, Bool.false_and], fun hplain => ?_⟩
      exact ⟨id, List.mem_cons_self, hnew (Bool.and_eq_true _ _ ▸ hplain).1⟩

end

end Bbq.Egraph
