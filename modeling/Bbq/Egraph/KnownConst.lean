import Bbq.Egraph.Grow
import Bbq.Egraph.Rewriter

/-!
# The analysis of known constants

`kc_make`, `kc_join` and `kc_modify` of the tests of the e-graph: the fact of a class is its value, where that
is known, and a class whose value is known has the constant in it. Where two values are claimed for one class
the smaller is taken, which makes the join commutative.
-/

namespace Bbq.Egraph

variable {g : EGraph}

def OP_A : Int := 1
def OP_B : Int := 2
def OP_F : Int := 3
def OP_ADD : Int := 4
def OP_MUL : Int := 5
def OP_CONST : Int := 7

/-- `eg_class_data`. -/
def egClassData (s : Analysed (Option Int)) (c : Nat) : Option Int := s.class_data.getD (root s.graph.parent c) none

/-- `kc_make`. -/
def kcMake (s : Analysed (Option Int)) (op data : Int) (kids : List Nat) : Option Int :=
  if op = OP_CONST then some data
  else
    match kids with
    | [a, b] =>
      if op = OP_ADD then
        match egClassData s a, egClassData s b with
        | some a, some b => some (a + b)
        | _, _ => none
      else none
    | _ => none

/-- `kc_join`. -/
def kcJoin : Option Int → Option Int → Option Int
  | some a, some b => some (min a b)
  | some a, none => some a
  | none, b => b

/-- The analysis before it has its `modify`. -/
def known : EgAnalysis (Option Int) := { zero := none, make := kcMake, join := kcJoin, modify := fun s _ _ => s }

/-- `kc_modify`. The `modify` of the constant itself finds it in its own class. -/
def kcModify (s : Analysed (Option Int)) (c : Nat) : Option Int → Analysed (Option Int)
  | none => s
  | some value =>
    match addNode known s OP_CONST value [] with
    | (some k, s) => (mergeFact known s c k).2
    | (none, s) => s

def knownConst : EgAnalysis (Option Int) := { known with modify := kcModify }

/-- The constant is in the class of `c`. -/
def HasConst (g : EGraph) (c : Nat) (value : Int) : Prop :=
  ∃ (i : Nat) (n : EgNode), g.nodes[i]? = some n ∧ n.live = true ∧ n.op = OP_CONST ∧ n.data = value ∧ n.kids = [] ∧
    root g.parent n.cls = root g.parent c

theorem add_hasConst (hg : Whole g) (value : Int) : ∃ k, (egAdd g OP_CONST value []).1 = some k ∧
    egValid (egAdd g OP_CONST value []).2 k ∧ HasConst (egAdd g OP_CONST value []).2 k value := by
  have hkids : ∀ k ∈ ([] : List Nat), egValid g k := fun k hk => (nomatch hk)
  rcases egAdd_spec hg.stored hg.keyed OP_CONST value hkids with ⟨i, n, hn, hlive, hop, hdata, hnil, hret, hs⟩ |
    ⟨-, hret, ha⟩
  · refine ⟨n.cls, hret, ?_, i, n, by rw [hs.nodes]; exact hn, hlive, hop, hdata, hnil, rfl⟩
    unfold egValid
    rw [hs.halved.length]
    exact (hg.stored.cls i n hn).1
  · obtain ⟨n, hn, hop, hdata, hnil, hcls, hlive⟩ := ha.new
    refine ⟨g.parent.length, hret, ?_, _, n, hn, hlive, hop, hdata, hnil, by rw [hcls]⟩
    unfold egValid
    rw [ha.length]
    exact Nat.lt_succ_self _

theorem HasConst.same {g' : EGraph} (hs : Same g g') {c : Nat} {value : Int} (h : HasConst g c value) :
    HasConst g' c value := by
  obtain ⟨i, n, hn, hlive, hop, hdata, hkids, hcls⟩ := h
  exact ⟨i, n, by rw [hs.nodes]; exact hn, hlive, hop, hdata, hkids, by rw [hs.halved.root, hs.halved.root, hcls]⟩

/-- A merged class has the constants of both. -/
theorem HasConst.merge (hg : Whole g) {c k : Nat} {value : Int} (h : HasConst g k value) (hc : egValid g c)
    (hk : egValid g k) : HasConst (egMerge g c k).2 c value := by
  obtain ⟨i, n, hn, hlive, hop, hdata, hkids, hcls⟩ := h
  have hroot := hg.stored.root_cls hn
  rcases egMerge_spec hg.stored hc hk with ⟨hroots, -, hs⟩ | ⟨hne, -, p, q, hpq, hm⟩
  · exact .same hs ⟨i, n, hn, hlive, hop, hdata, hkids, hcls.trans hroots.symm⟩
  · have hnode := hm.nodes i
    rw [hn, Option.map_some] at hnode
    have hpne : root g.parent p ≠ q ∧ root g.parent p = p := by
      rcases hpq with ⟨rfl, rfl⟩ | ⟨rfl, rfl⟩
      · rw [hg.stored.grove.root_root]
        exact ⟨hne, rfl⟩
      · rw [hg.stored.grove.root_root]
        exact ⟨Ne.symm hne, rfl⟩
    have hto : ∀ x, root g.parent x = root g.parent c ∨ root g.parent x = root g.parent k →
        root (egMerge g c k).2.parent x = p := by
      intro x hx
      rw [hm.root]
      split
      · rfl
      · next hq =>
        rcases hpq with ⟨rfl, rfl⟩ | ⟨rfl, rfl⟩
        · exact hx.resolve_right hq
        · exact hx.resolve_left hq
    refine ⟨i, _, hnode, ?_⟩
    by_cases hq : n.cls = q
    · rw [if_pos hq]
      refine ⟨hlive, hop, hdata, hkids, ?_⟩
      dsimp only
      rw [hto c (.inl rfl), hm.root, if_neg hpne.1, hpne.2]
    · rw [if_neg hq]
      refine ⟨hlive, hop, hdata, hkids, ?_⟩
      rw [hto c (.inl rfl), hto n.cls (.inr hcls)]

/-- A constant that is there is found in its class. -/
theorem HasConst.found (hg : Whole g) {c : Nat} {value : Int} (h : HasConst g c value) :
    ∃ k, (egAdd g OP_CONST value []).1 = some k ∧ egValid g k ∧ root g.parent c = root g.parent k ∧
      Same g (egAdd g OP_CONST value []).2 := by
  obtain ⟨i, n, hn, hlive, hop, hdata, hnil, hcls⟩ := h
  have hkids : ∀ k ∈ ([] : List Nat), egValid g k := fun k hk => (nomatch hk)
  have hi := (List.getElem?_eq_some_iff.mp hn).1
  rcases egAdd_spec hg.stored hg.keyed OP_CONST value hkids with ⟨j, n', hn', hlive', hop', hdata', hnil', hret, hs⟩ |
    ⟨hnone, -⟩
  · have hij := hg.keyed.apart i hi j (List.getElem?_eq_some_iff.mp hn').1 n n' hn hn' hlive hlive' (hop.trans hop'.symm)
      (hdata.trans hdata'.symm) (hnil.trans hnil'.symm)
    rw [hij, hn'] at hn
    obtain rfl := Option.some.inj hn
    exact ⟨n'.cls, hret, (hg.stored.cls j n' hn').1, hcls.symm, hs⟩
  · exact absurd hnil (hnone i hi n hn hlive hop hdata)

theorem kcModify_graph (s : Analysed (Option Int)) (c : Nat) (value : Int) :
    (kcModify s c (some value)).graph = match egAdd s.graph OP_CONST value [] with
      | (some k, g) => (egMerge g c k).2
      | (none, g) => g := by
  have hnode := addNode_graph known s OP_CONST value []
  unfold kcModify
  dsimp only
  generalize addNode known s OP_CONST value [] = r at hnode ⊢
  generalize egAdd s.graph OP_CONST value [] = r' at hnode ⊢
  obtain ⟨id, s'⟩ := r
  obtain ⟨id', g'⟩ := r'
  dsimp only at hnode ⊢
  obtain ⟨rfl, rfl⟩ := hnode
  cases id with
  | none => rfl
  | some k => exact (mergeFact_graph known s' c k).2

theorem kcJoin_assoc (d d' d'' : Option Int) : kcJoin (kcJoin d d') d'' = kcJoin d (kcJoin d' d'') := by
  cases d with
  | none => rfl
  | some a =>
    cases d' with
    | none => cases d'' <;> rfl
    | some b =>
      cases d'' with
      | none => rfl
      | some c => exact congrArg some (min_assoc a b c)

/-- The analysis of known constants keeps what `egraph.h` asks for. -/
theorem knownConst_contract : Contract knownConst where
  join_comm d d' := by
    cases d with
    | none => cases d' <;> rfl
    | some a =>
      cases d' with
      | none => rfl
      | some b => exact congrArg some (min_comm a b)
  join_assoc := kcJoin_assoc
  join_self d := by
    cases d with
    | none => rfl
    | some a => exact congrArg some (min_self a)
  works s c d := by
    cases d with
    | none => exact .done
    | some value =>
      have hadd : Works knownConst s (addNode known s OP_CONST value []).2 := .add OP_CONST value [] .done
      change Works knownConst s (kcModify s c (some value))
      unfold kcModify
      dsimp only
      generalize addNode known s OP_CONST value [] = r at hadd ⊢
      obtain ⟨id, s'⟩ := r
      cases id with
      | none => exact hadd
      | some k => exact .merge c k hadd
  again s c d hs hc := by
    cases d with
    | none => exact .refl hs.stored.grove
    | some value =>
      change Same (kcModify s c (some value)).graph (kcModify (kcModify s c (some value)) c (some value)).graph
      rw [kcModify_graph (kcModify s c (some value)), kcModify_graph s]
      obtain ⟨k, hret, hk, hconst⟩ := add_hasConst hs value
      have honward := Onward.add hs OP_CONST value []
      have hc' := honward.valid hs hc
      generalize egAdd s.graph OP_CONST value [] = r at hret hk hconst honward hc' ⊢
      obtain ⟨id, g₁⟩ := r
      dsimp only at hret hk hconst honward hc' ⊢
      subst hret
      dsimp only
      have hmerge := Onward.merge honward.whole c k
      have hg₂ := hmerge.whole
      have hc₂ := hmerge.valid honward.whole hc'
      obtain ⟨k', hret', hk', hroots, hs'⟩ := (hconst.merge honward.whole hc' hk).found hg₂
      generalize (egMerge g₁ c k).2 = g₂ at hg₂ hc₂ hret' hk' hroots hs' ⊢
      generalize egAdd g₂ OP_CONST value [] = r at hret' hs' ⊢
      obtain ⟨id', g₃⟩ := r
      dsimp only at hret' hs' ⊢
      subst hret'
      change Same g₂ (egMerge g₃ c k').2
      have hvalid : ∀ x, egValid g₂ x → egValid g₃ x := fun x hx => by
        unfold egValid
        rw [hs'.halved.length]
        exact hx
      have hg₃ := hg₂.same hs'
      rcases egMerge_spec hg₃.stored (hvalid c hc₂) (hvalid k' hk') with ⟨-, -, hs''⟩ | ⟨hne, -⟩
      · exact hs'.trans hs''
      · rw [hs'.halved.root, hs'.halved.root] at hne
        exact absurd hroots hne

end Bbq.Egraph
