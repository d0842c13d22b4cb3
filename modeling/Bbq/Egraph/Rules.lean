import Bbq.Egraph.Matching
import Bbq.Egraph.Restore

/-!
# Rules that hold

A rule is about values: where its pattern fits a value and its guard is passed, all instances of its template have that
value (`RewriteRule.Holds`). A template's nodes take the data of the matched node, which is found by its index once the
body runs. The merges in between may have moved it, and so an instance may have the data of any node of the value.

* `Makes`: a part of the matcher leaves a graph that makes sense, with the values there were.
* `matchPat_makes`: the loops of a pattern hand on variables whose values fit it.
* `build_goes`: what a template builds is an instance of it.
* **`rewriteRound_makes`**: a pass over rules that hold.
-/

namespace Bbq.Egraph

open Bbq.Lib

variable {V D : Type}

/-! ## Rules on values -/

/-- The values of the binders. -/
abbrev Values (V : Type) := String → Option V

variable (L : Language V D)

mutual

/-- The pattern fits the value, and binds its binders on top of `ρ`. -/
def Language.Fits : RewritePat → V → Values V → Values V → Prop
  | .binder name, v, ρ, ρ' => ρ' = Function.update ρ name (some v)
  | .node op ps, v, ρ, ρ' => ∃ data vs, L.meaning op data vs = v ∧ Language.FitsAll ps vs ρ ρ'

def Language.FitsAll : List RewritePat → List V → Values V → Values V → Prop
  | [], [], ρ, ρ' => ρ' = ρ
  | p :: ps, v :: vs, ρ, ρ' => ∃ ρ₁, Language.Fits p v ρ ρ₁ ∧ Language.FitsAll ps vs ρ₁ ρ'
  | _, _, _, _ => False

end

mutual

/-- The values of the instances of a template, where `v` is the value matched. -/
def Language.Instance (v : V) (ρ : Values V) : RewriteTmpl → V → Prop
  | .binder name, u => ρ name = some u
  | .matched, u => u = v
  | .node op ts, u => ∃ data us, L.Carries v data ∧ Language.InstanceAll v ρ ts us ∧ u = L.meaning op data us
  | .helper name ts, u => ∃ us, Language.InstanceAll v ρ ts us ∧ u = L.helper name us

def Language.InstanceAll (v : V) (ρ : Values V) : List RewriteTmpl → List V → Prop
  | [], us => us = []
  | t :: ts, us => ∃ u us', Language.Instance v ρ t u ∧ Language.InstanceAll v ρ ts us' ∧ us = u :: us'

end

/-- The variables hold ids, with these values. -/
structure Shown (ν : Nat → V) (s : Analysed D) (env : Env) (ρ : Values V) : Prop where
  valid : ∀ name id, env name = some id → id < s.graph.parent.length
  value : ∀ name, ρ name = (env name).map ν

/-- **The rule holds.** -/
def RewriteRule.Holds (an : EgAnalysis D) (rule : RewriteRule D) : Prop :=
  ∀ (ν : Nat → V) (s : Analysed D) (c : Nat) (env : Env) (ρ : Values V) (data : Int) (vs : List V), Sense L an ν s →
    c < s.graph.parent.length → Shown ν s env ρ → L.meaning rule.op data vs = ν c →
      L.FitsAll rule.children vs (fun _ => none) ρ → rule.guard (view s) env c = true →
        ∀ u, L.Instance (ν c) ρ rule.tmpl u → u = ν c

/-! ## Parts of the matcher -/

variable (an : EgAnalysis D)

/-- Calls keep it. -/
def Lasting (P : (Nat → V) → Analysed D → Prop) : Prop :=
  ∀ {ν : Nat → V} {s : Analysed D} {ν' : Nat → V} {s' : Analysed D}, Goes L an ν s ν' s' → P ν s → P ν' s'

/-- From a graph that makes sense, where `P`, to one that does. -/
def Makes (P : (Nat → V) → Analysed D → Prop) (f : Turn D → Turn D) : Prop :=
  ∀ (ν : Nat → V) (t : Turn D), Sense L an ν t.state → P ν t.state → ∃ ν', Goes L an ν t.state ν' (f t).state

variable {L an} {ν : Nat → V} {s : Analysed D} {P Q : (Nat → V) → Analysed D → Prop}

theorem Lasting.and (hP : Lasting L an P) (hQ : Lasting L an Q) : Lasting L an fun ν s => P ν s ∧ Q ν s :=
  fun hgoes h => ⟨hP hgoes h.1, hQ hgoes h.2⟩

theorem lasting_has (c : Nat) (v : V) : Lasting L an (Has · · c v) := fun hgoes h => h.advance hgoes.toAdvance

theorem lasting_hasAll (ids : List Nat) (vs : List V) :
    Lasting L an fun ν s => List.Forall₂ (fun id v => Has ν s id v) ids vs :=
  fun hgoes h => h.imp fun _ _ hhas => hhas.advance hgoes.toAdvance

theorem lasting_shown (env : Env) (ρ : Values V) : Lasting L an (Shown · · env ρ) := by
  intro ν s ν' s' hgoes h
  refine ⟨fun name id hid => lt_of_lt_of_le (h.valid name id hid) hgoes.length, fun name => ?_⟩
  rw [h.value]
  cases hid : env name with
  | none => rfl
  | some id =>
    rw [Option.map_some, Option.map_some, hgoes.kept id (h.valid name id hid)]

/-- There is a node of this index in a class. -/
theorem lasting_at (c n : Nat) :
    Lasting L an fun _ s => c < s.graph.parent.length ∧ n < egClassNodes s.graph (some c) :=
  fun hgoes h => ⟨lt_of_lt_of_le h.1 hgoes.length, lt_of_lt_of_le h.2 (hgoes.gathers.count c h.1)⟩

theorem Makes.of_imp {f : Turn D → Turn D} (h : Makes L an P f) (hPQ : ∀ ν s, Q ν s → P ν s) : Makes L an Q f :=
  fun ν t ht hQ => h ν t ht (hPQ ν t.state hQ)

theorem foldl_makes {α : Type} (hP : Lasting L an P) {body : Turn D → α → Turn D} (l : List α)
    (hbody : ∀ a ∈ l, Makes L an P (body · a)) : Makes L an P (l.foldl body) := by
  intro ν t ht hp
  induction l generalizing ν t with
  | nil => exact ⟨ν, .refl ht⟩
  | cons a l ih =>
    obtain ⟨ν₁, hfirst⟩ := hbody a List.mem_cons_self ν t ht hp
    obtain ⟨ν₂, hrest⟩ := ih (fun b hb => hbody b (List.mem_cons_of_mem _ hb)) ν₁ _ hfirst.sense (hP hfirst hp)
    exact ⟨ν₂, hfirst.trans hrest⟩

/-! ## The loops of a pattern -/

theorem classLiveNode_at {g : EGraph} (hg : Whole g) {c i : Nat} {n : EgNode}
    (hn : classLiveNode g (some c) i = some n) : i < egClassNodes g (some c) ∧ NodeAt g c n := by
  have hlive := hn
  unfold classLiveNode at hlive
  rw [Option.bind_eq_some_iff] at hlive
  obtain ⟨idx, hidx, -⟩ := hlive
  have hi : i < egClassNodes g (some c) := (List.getElem?_eq_some_iff.mp hidx).1
  exact ⟨hi, (classLiveNode_iff hg n).mp ⟨i, hi, hn⟩⟩

/-- A node of a class computes its value. -/
theorem Sense.node_at (h : Sense L an ν s) {c : Nat} {n : EgNode} (hn : NodeAt s.graph c n) :
    L.meaning n.op n.data (n.kids.map ν) = ν c ∧ ∀ k ∈ n.kids, k < s.graph.parent.length := by
  obtain ⟨hc, i, hi, -, hcls⟩ := hn
  refine ⟨?_, h.valued.whole.stored.kids i n hi⟩
  rw [← h.valued.node i n hi, hcls, h.valued.root hc]

theorem matchTurn_makes {op : Int} {arity c n : Nat} {v : V} {body : Nat → List (Option Nat) → Turn D → Turn D}
    (hbody : ∀ data vs (ids : List Nat), L.meaning op data vs = v → ids.length = arity →
      Makes L an (fun ν s => (P ν s ∧ Has ν s c v ∧ n < egClassNodes s.graph (some c)) ∧
        List.Forall₂ (fun id v => Has ν s id v) ids vs) (body n (ids.map some))) :
    Makes L an (fun ν s => P ν s ∧ Has ν s c v) (matchTurn op arity (some c) body · n) := by
  intro ν t ht hp
  obtain ⟨hp, hhas⟩ := hp
  dsimp only [matchTurn]
  split
  · next hmatch =>
    unfold egClassNodeOp egClassNodeNkids at hmatch
    cases hlive : classLiveNode t.state.graph (some c) n with
    | none =>
      rw [hlive] at hmatch
      have hneg := hmatch.2
      simp only [Option.map_none, Option.getD_none] at hneg
      omega
    | some nd =>
      rw [hlive, Option.map_some, Option.getD_some, Option.map_some, Option.getD_some] at hmatch
      obtain ⟨rfl, harity⟩ := hmatch
      have harity : nd.kids.length = arity := Int.ofNat.inj harity
      obtain ⟨hi, hat⟩ := classLiveNode_at ht.valued.whole hlive
      obtain ⟨hvalue, hkids⟩ := ht.node_at hat
      have hids : (List.range arity).map (egClassNodeKid t.state.graph (some c) n) =
          (nd.kids.map (root t.state.graph.parent)).map some := by
        rw [← harity, kidIds_eq hlive, List.map_map]
        rfl
      rw [hids]
      refine hbody nd.data (nd.kids.map ν) _ (hvalue.trans hhas.2) (by rw [List.length_map, harity]) ν t ht
        ⟨⟨hp, hhas, hi⟩, ?_⟩
      rw [List.forall₂_map_left_iff, List.forall₂_map_right_iff, List.forall₂_same]
      exact fun k hk => ⟨ht.valued.whole.stored.grove.root_lt (hkids k hk), ht.valued.root (hkids k hk)⟩
  · exact ⟨ν, .refl ht⟩

theorem matchNode_makes (hP : Lasting L an P) {op : Int} {arity c : Nat} {v : V}
    {body : Nat → List (Option Nat) → Turn D → Turn D}
    (hbody : ∀ n data vs (ids : List Nat), L.meaning op data vs = v → ids.length = arity →
      Makes L an (fun ν s => (P ν s ∧ Has ν s c v ∧ n < egClassNodes s.graph (some c)) ∧
        List.Forall₂ (fun id v => Has ν s id v) ids vs) (body n (ids.map some))) :
    Makes L an (fun ν s => P ν s ∧ Has ν s c v) (matchNode op arity (some c) body) := by
  intro ν t ht hp
  unfold matchNode
  exact foldl_makes (hP.and (lasting_has c v)) _ (fun n _ => matchTurn_makes (hbody n)) ν t ht hp

mutual

/-- **The loops of a pattern**: what is inside them runs with variables whose values fit it. -/
theorem matchPat_makes : ∀ (p : RewritePat) {P : (Nat → V) → Analysed D → Prop}, Lasting L an P →
    ∀ {c : Nat} {v : V} {env : Env} {ρ : Values V} {k : Env → Turn D → Turn D},
    (∀ env' ρ', L.Fits p v ρ ρ' → Makes L an (fun ν s => P ν s ∧ Shown ν s env' ρ') (k env')) →
      Makes L an (fun ν s => (P ν s ∧ Shown ν s env ρ) ∧ Has ν s c v) (matchPat p (some c) env k)
  | .binder name, P, hP, c, v, env, ρ, k, hk => by
    unfold matchPat
    refine (hk _ (Function.update ρ name (some v)) (by unfold Language.Fits; rfl)).of_imp fun ν s h => ⟨h.1.1, ?_⟩
    refine ⟨fun x id hx => ?_, fun x => ?_⟩
    · by_cases hname : x = name
      · subst hname
        rw [Function.update_self] at hx
        obtain rfl := Option.some.inj hx
        exact h.2.1
      · rw [Function.update_of_ne hname] at hx
        exact h.1.2.valid x id hx
    · by_cases hname : x = name
      · subst hname
        rw [Function.update_self, Function.update_self, Option.map_some, h.2.2]
      · rw [Function.update_of_ne hname, Function.update_of_ne hname]
        exact h.1.2.value x
  | .node op ps, P, hP, c, v, env, ρ, k, hk => by
    unfold matchPat
    refine matchNode_makes (hP.and (lasting_shown env ρ)) fun n data vs ids hvalue hlen => ?_
    refine (matchPats_makes ps ids vs hlen hP fun env' ρ' hfits => hk env' ρ' ?_).of_imp fun ν s h => ⟨h.1.1, h.2⟩
    unfold Language.Fits
    exact ⟨data, vs, hvalue, hfits⟩

theorem matchPats_makes : ∀ (ps : List RewritePat) (ids : List Nat) (vs : List V), ids.length = ps.length →
    ∀ {P : (Nat → V) → Analysed D → Prop}, Lasting L an P →
    ∀ {env : Env} {ρ : Values V} {k : Env → Turn D → Turn D},
    (∀ env' ρ', L.FitsAll ps vs ρ ρ' → Makes L an (fun ν s => P ν s ∧ Shown ν s env' ρ') (k env')) →
      Makes L an (fun ν s => (P ν s ∧ Shown ν s env ρ) ∧ List.Forall₂ (fun id v => Has ν s id v) ids vs)
        (matchPats ps (ids.map some) env k)
  | [], ids, vs, hlen, P, hP, env, ρ, k, hk => by
    obtain rfl := List.length_eq_zero_iff.mp hlen
    intro ν t ht h
    cases h.2
    unfold matchPats
    exact hk env ρ (by unfold Language.FitsAll; rfl) ν t ht h.1
  | p :: ps, [], vs, hlen, P, hP, env, ρ, k, hk => by cases hlen
  | p :: ps, id :: ids, vs, hlen, P, hP, env, ρ, k, hk => by
    intro ν t ht h
    cases h.2 with
    | @cons _ v _ vs hhead htail =>
      unfold matchPats
      refine matchPat_makes p (hP.and (lasting_hasAll ids vs)) (fun env₁ ρ₁ hfits => ?_) ν t ht
        ⟨⟨⟨h.1.1, htail⟩, h.1.2⟩, hhead⟩
      refine (matchPats_makes ps ids vs (Nat.succ.inj hlen) hP fun env' ρ' hrest => hk env' ρ' ?_).of_imp
        fun ν s h => ⟨⟨h.1.1, h.2⟩, h.1.2⟩
      unfold Language.FitsAll
      exact ⟨ρ₁, hfits, hrest⟩

end

/-! ## Building -/

/-- Where the body of the loops runs: class `c` has the value and a node `n`, and the variables are shown. -/
def Matched (c n : Nat) (v : V) (env : Env) (ρ : Values V) (ν : Nat → V) (s : Analysed D) : Prop :=
  (Has ν s c v ∧ n < egClassNodes s.graph (some c)) ∧ Shown ν s env ρ

theorem lasting_matched (c n : Nat) (v : V) (env : Env) (ρ : Values V) : Lasting L an (Matched c n v env ρ) := by
  intro ν s ν' s' hgoes h
  obtain ⟨⟨hhas, hat⟩, hshown⟩ := h
  exact ⟨⟨hhas.advance hgoes.toAdvance, (lasting_at c n hgoes ⟨hhas.1, hat⟩).2⟩, lasting_shown env ρ hgoes hshown⟩

/-- The data that a template's nodes are given is that of some node of the value. -/
theorem Matched.carries (h : Sense L an ν s) {c n : Nat} {v : V} {env : Env} {ρ : Values V}
    (hm : Matched c n v env ρ ν s) : L.Carries v (egClassNodeData s.graph (some c) n) := by
  obtain ⟨⟨hhas, hat⟩, -⟩ := hm
  have hmem : (liveNodes s.graph (some c))[n]? = some ((liveNodes s.graph (some c)).get ⟨n, hat⟩) :=
    List.getElem?_eq_getElem hat
  obtain ⟨-, nd, hnd, hlive, hcls⟩ := (mem_liveNodes h.valued.whole).mp (List.get_mem _ ⟨n, hat⟩)
  have hnode : classLiveNode s.graph (some c) n = some nd := by
    unfold classLiveNode
    rw [hmem, Option.bind_some]
    exact hnd
  unfold egClassNodeData
  rw [hnode, Option.map_some, Option.getD_some]
  exact ⟨nd.op, nd.kids.map ν, (h.node_at ⟨hhas.1, _, hnd, hlive, hcls⟩).1.trans hhas.2⟩

theorem exists_ids {ids : List (Option Nat)} (h : none ∉ ids) : ∃ ks : List Nat, ids = ks.map some := by
  induction ids with
  | nil => exact ⟨[], rfl⟩
  | cons id ids ih =>
    obtain ⟨ks, rfl⟩ := ih fun hmem => h (List.mem_cons_of_mem _ hmem)
    cases id with
    | none => exact absurd List.mem_cons_self h
    | some k => exact ⟨k :: ks, rfl⟩

theorem values_of_hasAll {ids : List Nat} {vs : List V} (h : List.Forall₂ (fun id v => Has ν s id v) ids vs) :
    (∀ id ∈ ids, id < s.graph.parent.length) ∧ ids.map ν = vs := by
  induction h with
  | nil => exact ⟨fun id hid => absurd hid List.not_mem_nil, rfl⟩
  | cons hhead _ ih =>
    refine ⟨fun id hid => ?_, by rw [List.map_cons, hhead.2, ih.2]⟩
    rcases List.mem_cons.mp hid with rfl | hid
    · exact hhead.1
    · exact ih.1 id hid

variable {aux : String → View D → List (Option Nat) → Option Nat}

mutual

/-- **What a template builds** is an instance of it. -/
theorem build_goes (hL : L.Describes an aux) (han : Contract an) {c n : Nat} {v : V} {env : Env} {ρ : Values V} :
    ∀ (t : RewriteTmpl) {ν : Nat → V} {s : Analysed D}, Sense L an ν s → Matched c n v env ρ ν s →
      ∃ ν', Goes L an ν s ν' (build an aux c n env t s).2 ∧ ∀ id, (build an aux c n env t s).1 = some id →
        ∃ u, Has ν' (build an aux c n env t s).2 id u ∧ L.Instance v ρ t u
  | .binder name, ν, s, hs, hm => by
    unfold build
    refine ⟨ν, .refl hs, fun id hid => ⟨ν id, ⟨hm.2.valid name id hid, rfl⟩, ?_⟩⟩
    dsimp only at hid
    unfold Language.Instance
    rw [hm.2.value, hid, Option.map_some]
  | .matched, ν, s, hs, hm => by
    unfold build
    refine ⟨ν, .refl hs, fun id hid => ?_⟩
    obtain rfl := Option.some.inj hid
    refine ⟨v, hm.1.1, ?_⟩
    unfold Language.Instance
    rfl
  | .node op ts, ν, s, hs, hm => by
    obtain ⟨ν₁, hkids, hinstances⟩ := builds_goes hL han ts hs hm
    unfold build
    generalize builds an aux c n env ts s = r at hkids hinstances ⊢
    obtain ⟨kids, s₁⟩ := r
    dsimp only at hkids hinstances ⊢
    unfold addNodeOf
    by_cases hnone : none ∈ kids
    · rw [if_pos hnone]
      exact ⟨ν₁, hkids, fun id hid => by cases hid⟩
    · rw [if_neg hnone]
      obtain ⟨ids, rfl⟩ := exists_ids hnone
      obtain ⟨us, hall, hus⟩ := hinstances ids rfl
      obtain ⟨hvalid, rfl⟩ := values_of_hasAll hall
      rw [List.filterMap_map, show ((fun k : Option Nat => k) ∘ some) = some from rfl, List.filterMap_some]
      have hcarries := Matched.carries hkids.sense (lasting_matched c n v env ρ hkids hm)
      obtain ⟨ν₂, id, hret, hgoes, hhas⟩ := addFact_goes hL han hkids.sense op
        (egClassNodeData s₁.graph (some c) n) hvalid
      refine ⟨ν₂, hkids.trans hgoes, fun id' hid' => ?_⟩
      rw [hret] at hid'
      obtain rfl := Option.some.inj hid'
      refine ⟨_, hhas, ?_⟩
      unfold Language.Instance
      exact ⟨_, _, hcarries, hus, rfl⟩
  | .helper name ts, ν, s, hs, hm => by
    obtain ⟨ν₁, hkids, hinstances⟩ := builds_goes hL han ts hs hm
    unfold build
    generalize builds an aux c n env ts s = r at hkids hinstances ⊢
    obtain ⟨kids, s₁⟩ := r
    dsimp only at hkids hinstances ⊢
    refine ⟨ν₁, hkids, fun id hid => ?_⟩
    by_cases hnone : none ∈ kids
    · rw [hL.refuses name _ hnone] at hid
      cases hid
    · obtain ⟨ids, rfl⟩ := exists_ids hnone
      obtain ⟨us, hall, hus⟩ := hinstances ids rfl
      obtain ⟨hvalid, rfl⟩ := values_of_hasAll hall
      refine ⟨_, hL.helper name hkids.sense hvalid hid, ?_⟩
      unfold Language.Instance
      exact ⟨_, hus, rfl⟩

theorem builds_goes (hL : L.Describes an aux) (han : Contract an) {c n : Nat} {v : V} {env : Env} {ρ : Values V} :
    ∀ (ts : List RewriteTmpl) {ν : Nat → V} {s : Analysed D}, Sense L an ν s → Matched c n v env ρ ν s →
      ∃ ν', Goes L an ν s ν' (builds an aux c n env ts s).2 ∧
        ∀ ids : List Nat, (builds an aux c n env ts s).1 = ids.map some →
          ∃ us, List.Forall₂ (fun id v => Has ν' (builds an aux c n env ts s).2 id v) ids us ∧ L.InstanceAll v ρ ts us
  | [], ν, s, hs, hm => by
    unfold builds
    refine ⟨ν, .refl hs, fun ids hids => ?_⟩
    obtain rfl := List.map_eq_nil_iff.mp hids.symm
    refine ⟨[], .nil, ?_⟩
    unfold Language.InstanceAll
    rfl
  | t :: ts, ν, s, hs, hm => by
    obtain ⟨ν₁, hhead, hinstance⟩ := build_goes hL han t hs hm
    unfold builds
    generalize build an aux c n env t s = r at hhead hinstance ⊢
    obtain ⟨ret, s₁⟩ := r
    dsimp only at hhead hinstance ⊢
    obtain ⟨ν₂, hrest, hinstances⟩ := builds_goes hL han ts hhead.sense (lasting_matched c n v env ρ hhead hm)
    generalize builds an aux c n env ts s₁ = r at hrest hinstances ⊢
    obtain ⟨rets, s₂⟩ := r
    dsimp only at hrest hinstances ⊢
    refine ⟨ν₂, hhead.trans hrest, fun ids hids => ?_⟩
    cases ids with
    | nil => cases hids
    | cons id ids =>
      rw [List.map_cons, List.cons.injEq] at hids
      obtain ⟨u, hhas, hu⟩ := hinstance id hids.1
      obtain ⟨us, hall, hus⟩ := hinstances ids hids.2
      refine ⟨u :: us, .cons (hhas.advance hrest.toAdvance) hall, ?_⟩
      unfold Language.InstanceAll
      exact ⟨u, us, hu, hus, rfl⟩

end

/-! ## A round -/

/-- The innermost body. -/
theorem fire_makes (hL : L.Describes an aux) (han : Contract an) {rule : RewriteRule D} (hrule : rule.Holds L an)
    {c n : Nat} {v : V} {env : Env} {ρ : Values V} {data : Int} {vs : List V} (hvalue : L.meaning rule.op data vs = v)
    (hfits : L.FitsAll rule.children vs (fun _ => none) ρ) :
    Makes L an (Matched c n v env ρ) (fire an aux rule c n env) := by
  intro ν t ht hm
  unfold fire
  split
  · next hguard =>
    obtain ⟨ν₁, hbuild, hinstance⟩ := build_goes hL han rule.tmpl ht hm
    generalize build an aux c n env rule.tmpl t.state = r at hbuild hinstance ⊢
    obtain ⟨built, s₁⟩ := r
    dsimp only at hbuild hinstance ⊢
    cases built with
    | none => exact ⟨ν₁, hbuild⟩
    | some built =>
      obtain ⟨u, hhas, hu⟩ := hinstance built rfl
      have hc := hm.1.1
      have huv : u = v := by
        rw [← hc.2] at hvalue hu ⊢
        exact hrule ν t.state c env ρ data vs ht hc.1 hm.2 hvalue hfits hguard u hu
      rw [huv] at hhas
      exact ⟨ν₁, hbuild.trans (mergeFact_goes hL.toReads hbuild.sense (hc.advance hbuild.toAdvance) hhas)⟩
  · exact ⟨ν, .refl ht⟩

theorem classTurn_makes (hL : L.Describes an aux) (han : Contract an) {rule : RewriteRule D} (hrule : rule.Holds L an)
    (c : Nat) : Makes L an (fun _ s => c < s.graph.parent.length) (classTurn an aux rule · c) := by
  intro ν t ht hc
  dsimp only [classTurn]
  split
  · have htrue : Lasting L an fun _ _ => True := fun _ _ => trivial
    refine matchNode_makes (v := ν c) htrue (fun n data vs ids hvalue hlen => ?_) ν t ht ⟨trivial, hc, rfl⟩
    have hlasting : Lasting L an fun ν' s => Has ν' s c (ν c) ∧ n < egClassNodes s.graph (some c) :=
      fun hgoes h => ⟨h.1.advance hgoes.toAdvance, (lasting_at c n hgoes ⟨h.1.1, h.2⟩).2⟩
    refine (matchPats_makes rule.children ids vs hlen hlasting (ρ := fun _ => none) fun env ρ hfits =>
      fire_makes hL han hrule hvalue hfits).of_imp fun ν' s h => ⟨⟨h.1.2, ?_⟩, h.2⟩
    exact ⟨fun name id hid => (by cases hid), fun name => rfl⟩
  · exact ⟨ν, .refl ht⟩

theorem ruleTurn_makes (hL : L.Describes an aux) (han : Contract an) {rule : RewriteRule D} (hrule : rule.Holds L an) :
    Makes L an (fun _ _ => True) (ruleTurn an aux · rule) := by
  intro ν t ht _
  have hcount : egClassCount t.state.graph = t.state.graph.parent.length := ht.valued.whole.stored.classes
  have hlasting : Lasting L an fun _ s => egClassCount t.state.graph ≤ s.graph.parent.length :=
    fun hgoes h => h.trans hgoes.length
  exact foldl_makes hlasting (List.range (egClassCount t.state.graph)) (fun c hc =>
    (classTurn_makes hL han hrule c).of_imp fun _ _ h => lt_of_lt_of_le (List.mem_range.mp hc) h) ν
    { state := t.state, changed := false } ht (le_of_eq hcount)

/-- **A pass over rules that hold** changes no value. -/
theorem rewriteRound_makes (hL : L.Describes an aux) (han : Contract an) {rules : List (RewriteRule D)}
    (hrules : ∀ rule ∈ rules, rule.Holds L an) (hs : Sense L an ν s) :
    ∃ ν', Goes L an ν s ν' (rewriteRound an aux rules s).state :=
  foldl_makes (fun _ _ => trivial) rules (fun rule hrule => ruleTurn_makes hL han (hrules rule hrule)) ν
    { state := s, changed := false } hs trivial

end Bbq.Egraph
