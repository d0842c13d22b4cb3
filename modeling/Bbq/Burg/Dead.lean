import Mathlib.Algebra.Ring.Nat
import Bbq.Burg.Derive
import Bbq.Burg.Liveness
import Bbq.Burg.Representers

/-!
# No rule in use is reported dead

Where patterns have no operators below the root, what `compute_demand` ends with reaches every rule of every derivation.

* `Steady` and `Asked`: what the demands are once a pass adds nothing. **`computeDemand_spec`**: the passes end so.
* `Realised`: at some state a derivation's nonterminal is derived, and all its rules are live if that is asked for there.
  **`realised_of_valid`**: every derivation is.
* **`dead_unused`**: a rule reported dead is in no derivation of the start nonterminal or an entry, whatever the guards.

A rule whose left side is only asked for below a nested operator is reported nonetheless (`nestedGrammar`).
-/

namespace Bbq.Burg.Completeness

open Bbq.Lib

variable {G : Spec} {order : TerminalArities G} {schema : Option AsdlSchema} {aut : Automaton} {b c : NontermBits}
  {i j : Nat}

/-! ## Chain rules, backwards -/

/-- Whoever asks for the left side of the chain rule asks for its source. -/
def DemandDone (G : Spec) (cr : Rule) (b : NontermBits) : Prop :=
  ∀ i j, ntIndex G cr.pattern.name = some i → ntIndex G cr.nonterm = some j → has b j = true → has b i = true

theorem demand_passing (hG : Narrow G) : Passing (fun _ => True) (fun _ => True) Asking.changed (demandStep G)
    (fun d => absent d.demanded) (fun d d' => d'.demanded = d.demanded) (fun cr d => DemandDone G cr d.demanded) where
  refl := fun _ => rfl
  trans := fun h h' => h'.trans h
  same := fun h => by rw [h]
  keeps := fun h hdone => by rw [h]; exact hdone
  stays := fun _ _ _ => trivial
  stepped := fun {s} _ {cr} _ => by
    unfold demandStep
    cases hi : ntIndex G cr.pattern.name with
    | none => exact .inl ⟨rfl, rfl, fun i j hi' => by rw [hi] at hi'; cases hi'⟩
    | some i =>
      cases hj : ntIndex G cr.nonterm with
      | none => exact .inl ⟨rfl, rfl, fun i j _ hj' => by rw [hj] at hj'; cases hj'⟩
      | some j =>
        have hindex : ∀ i' j', ntIndex G cr.pattern.name = some i' → ntIndex G cr.nonterm = some j' →
            i' = i ∧ j' = j := fun i' j' hi' hj' => by
          rw [hi] at hi'
          rw [hj] at hj'
          exact ⟨(Option.some.inj hi').symm, (Option.some.inj hj').symm⟩
        dsimp only
        cases hto : has s.demanded j with
        | false =>
          refine .inl ⟨rfl, rfl, fun i' j' hi' hj' hhas => ?_⟩
          obtain ⟨rfl, rfl⟩ := hindex i' j' hi' hj'
          simp [hto] at hhas
        | true =>
          cases hfrom : has s.demanded i with
          | true =>
            refine .inl ⟨rfl, rfl, fun i' j' hi' hj' _ => ?_⟩
            obtain ⟨rfl, rfl⟩ := hindex i' j' hi' hj'
            exact hfrom
          | false => exact .inr ⟨rfl, absent_or_bit (ntIndex_get hi).1 (hG.le hi) hfrom⟩

theorem chainDemandClose_subset (h : has b i = true) : has (chainDemandClose G b) i = true := by
  unfold chainDemandClose
  refine passes_keep (fun d : Asking => { d with changed := false }) G.chainRules
    (P := fun d : Asking => has d.demanded i = true) (fun _ h => h) (fun s hs cr _ => ?_) _
    (s := { demanded := b, changed := true }) h
  unfold demandStep
  cases ntIndex G cr.pattern.name with
  | none => exact hs
  | some i' =>
    cases ntIndex G cr.nonterm with
    | none => exact hs
    | some j' =>
      dsimp only
      split
      · dsimp only
        rw [has_or, hs, Bool.true_or]
      · exact hs

/-- A demand closed under chain rules. -/
def DemandClosed (G : Spec) (b : NontermBits) : Prop := ∀ cr ∈ G.chainRules, DemandDone G cr b

theorem chainDemandClose_done (hG : Narrow G) : DemandClosed G (chainDemandClose G b) := by
  intro cr hcr
  have hn : absent b < maxNonterms + 1 := Nat.lt_succ_of_le (absent_le b)
  unfold chainDemandClose
  generalize maxNonterms + 1 = n at hn ⊢
  exact (passes_done (fun d => { d with changed := false }) G.chainRules (demand_passing hG)
    (fun _ _ => trivial) (fun _ _ => ⟨trivial, rfl, rfl⟩) (s := { demanded := b, changed := true }) trivial hn).2 cr hcr

theorem absent_lt_of_ne (h : ∀ i, has b i = true → has c i = true) (hne : c ≠ b) : absent c < absent b := by
  by_contra hnot
  refine hne (eq_of_has fun i hi hi' => ?_)
  cases hb : has b i with
  | true => exact h i hb
  | false =>
    cases hc : has c i with
    | false => rfl
    | true => exact absurd (absent_lt (fun k _ _ hk => h k hk) hi hi' hb hc) hnot

/-! ## Down the transitions -/

/-- What is asked for at a state, at all times. -/
structure Steady (G : Spec) (aut : Automaton) (demanded : List NontermBits) : Prop where
  length : demanded.length = aut.states.length
  seeds : ∀ (s : Nat) (st : State), aut.states[s]? = some st → ∀ g ∈ goalIndices G, has st.key.bits g = true →
    has (demanded.getD s 0#64) g = true
  closed : ∀ s, DemandClosed G (demanded.getD s 0#64)

/-- The states of the class at an operand are asked for it. -/
def OperandAsked (G : Spec) (aut : Automaton) (t : TransitionRecord) (operand : TreePattern × Nat)
    (demanded : List NontermBits) : Prop :=
  G.isNonterm operand.1 = true → ∀ (nt o : Nat) (rep : Rep), ntIndex G operand.1.name = some nt → t.op = some o →
    (aut.reps o operand.2)[t.child_reps.getD operand.2 0]? = some rep →
      ∀ csid ∈ rep.members, has (demanded.getD csid 0#64) nt = true

/-- So they are for all operands of a rule that contributes to what is asked for. -/
def RuleAsked (G : Spec) (aut : Automaton) (t : TransitionRecord) (dest_demand : NontermBits) (contributor : Nat × Nat)
    (demanded : List NontermBits) : Prop :=
  has dest_demand contributor.1 = true → ∀ r, (G.rules.find? fun r => r.rule_number == contributor.2) = some r →
    G.isNonterm r.pattern = false → r.pattern.children.length = t.child_reps.length →
      ∀ operand ∈ r.pattern.children.zipIdx, OperandAsked G aut t operand demanded

/-- **A transition with nothing left to ask for.** -/
def Asked (G : Spec) (aut : Automaton) (t : TransitionRecord) (demanded : List NontermBits) : Prop :=
  ∀ st : State, aut.states[t.dest]? = some st → ∀ contributor ∈ st.contributors,
    RuleAsked G aut t (demanded.getD t.dest 0#64) contributor demanded

/-- What may still be asked for. -/
def unasked (x : Demanding) : Nat := (x.demanded.map absent).sum

theorem getD_set {l : List NontermBits} (hi : i < l.length) (b : NontermBits) (s : Nat) :
    (l.set i b).getD s 0#64 = if s = i then b else l.getD s 0#64 := by
  rw [List.getD_eq_getElem?_getD, List.getD_eq_getElem?_getD, List.getElem?_set]
  by_cases hs : s = i
  · subst hs
    rw [if_pos rfl, if_pos hi, if_pos rfl, Option.getD_some]
  · rw [if_neg (Ne.symm hs), if_neg hs]

theorem sum_set_lt {f : NontermBits → Nat} : ∀ {l : List NontermBits} {i : Nat}, i < l.length →
    f b < f (l.getD i 0#64) → ((l.set i b).map f).sum < (l.map f).sum := by
  intro l
  induction l with
  | nil => exact fun hi _ => absurd hi (Nat.not_lt_zero _)
  | cons a l ih =>
    intro i hi hlt
    cases i with
    | zero =>
      rw [List.set_cons_zero, List.map_cons, List.map_cons, List.sum_cons, List.sum_cons]
      exact Nat.add_lt_add_right hlt _
    | succ i =>
      rw [List.set_cons_succ, List.map_cons, List.map_cons, List.sum_cons, List.sum_cons]
      exact Nat.add_lt_add_left (ih (Nat.lt_of_succ_lt_succ hi) hlt) _

theorem member_passing (hG : Narrow G) {nt : Nat} (h1 : 1 ≤ nt) (h64 : nt ≤ 64) :
    Passing (fun x => Steady G aut x.demanded) (fun csid => csid < aut.states.length) Demanding.changed
      (askMember G (bit nt)) unasked (fun x x' => x'.demanded = x.demanded)
      (fun csid x => has (x.demanded.getD csid 0#64) nt = true) where
  refl := fun _ => rfl
  trans := fun h h' => h'.trans h
  same := fun h => by unfold unasked; rw [h]
  keeps := fun h hdone => by rw [h]; exact hdone
  stays := fun {x} hx {csid} hcsid => by
    unfold askMember
    dsimp only
    have hlt : csid < x.demanded.length := hx.length.symm ▸ hcsid
    split
    · refine ⟨by rw [List.length_set]; exact hx.length, fun s st hst g hg hhas => ?_, fun s => ?_⟩
      · rw [getD_set hlt]
        split
        · next heq =>
          subst heq
          refine chainDemandClose_subset ?_
          rw [has_or, hx.seeds s st hst g hg hhas, Bool.true_or]
        · exact hx.seeds s st hst g hg hhas
      · rw [getD_set hlt]
        split
        · exact chainDemandClose_done hG
        · exact hx.closed s
    · exact hx
  stepped := fun {x} hx {csid} hcsid => by
    have hlt : csid < x.demanded.length := hx.length.symm ▸ hcsid
    have hasked : has (chainDemandClose G (x.demanded.getD csid 0#64 ||| bit nt)) nt = true :=
      chainDemandClose_subset ((has_or_bit h1 h1 h64).mpr (.inr rfl))
    unfold askMember
    dsimp only
    by_cases hnew : chainDemandClose G (x.demanded.getD csid 0#64 ||| bit nt) ≠ x.demanded.getD csid 0#64
    · rw [if_pos hnew]
      refine .inr ⟨rfl, sum_set_lt hlt (absent_lt_of_ne (fun k hk => chainDemandClose_subset ?_) hnew)⟩
      rw [has_or, hk, Bool.true_or]
    · rw [if_neg hnew]
      refine .inl ⟨rfl, rfl, ?_⟩
      rw [not_not] at hnew
      rw [← hnew]
      exact hasked

theorem operand_passing (hG : Narrow G) (h : Sound schema order aut) {t : TransitionRecord} (ht : t ∈ aut.transitions) :
    Passing (fun x => Steady G aut x.demanded) (fun operand : TreePattern × Nat => operand.2 < t.child_reps.length)
      Demanding.changed (askOperand G aut t) unasked (fun x x' => x'.demanded = x.demanded)
      (fun operand x => OperandAsked G aut t operand x.demanded) := by
  have hstep : ∀ {x : Demanding}, Steady G aut x.demanded → ∀ {operand : TreePattern × Nat},
      operand.2 < t.child_reps.length → Steady G aut (askOperand G aut t x operand).demanded ∧
      ((askOperand G aut t x operand).demanded = x.demanded ∧ (askOperand G aut t x operand).changed = x.changed ∧
        OperandAsked G aut t operand (askOperand G aut t x operand).demanded ∨
      (askOperand G aut t x operand).changed = true ∧ unasked (askOperand G aut t x operand) < unasked x) := by
    intro x hx operand hoperand
    unfold askOperand
    cases hkind : operand.1.isLeaf && !G.isTerminal operand.1.name with
    | false => exact ⟨hx, .inl ⟨rfl, rfl, fun hnonterm => by
        unfold Spec.isNonterm at hnonterm
        rw [hkind] at hnonterm
        cases hnonterm⟩⟩
    | true =>
      rw [if_pos rfl]
      cases hnt : ntIndex G operand.1.name with
      | none => exact ⟨hx, .inl ⟨rfl, rfl, fun _ nt o rep hnt' => by rw [hnt] at hnt'; cases hnt'⟩⟩
      | some nt =>
        cases hop : t.op with
        | none => exact ⟨hx, .inl ⟨rfl, rfl, fun _ nt o rep _ hop' => by rw [hop] at hop'; cases hop'⟩⟩
        | some o =>
          dsimp only
          have hmembers : ∀ rep : Rep, (aut.reps o operand.2)[t.child_reps.getD operand.2 0]? = some rep →
              ∀ csid ∈ rep.members, csid < aut.states.length := by
            intro rep hrep csid hcsid
            rcases h.shaped t ht with ⟨hnone, -, -⟩ | ⟨o', op, hop', hget, -, hchosen⟩
            · rw [hop] at hnone
              cases hnone
            · obtain rfl := Option.some.inj (hop.symm.trans hop')
              have hdim := List.getElem?_eq_getElem (hchosen.1 ▸ hoperand)
              obtain ⟨st, hst, -⟩ := (h.classes hget hdim rep (List.mem_of_getElem? hrep)).members csid hcsid
              exact (List.getElem?_eq_some_iff.mp hst).1
          cases hrep : (aut.reps o operand.2)[t.child_reps.getD operand.2 0]? with
          | none => exact ⟨hx, .inl ⟨rfl, rfl, fun _ nt' o' rep' _ hop' hrep' => by
              obtain rfl := Option.some.inj (hop.symm.trans hop')
              rw [hrep] at hrep'
              cases hrep'⟩⟩
          | some rep =>
            rw [Option.map_some, Option.getD_some]
            obtain ⟨hinv, hpass⟩ := foldl_passing (member_passing hG (ntIndex_get hnt).1 (hG.le hnt))
              (hmembers rep hrep) hx
            refine ⟨hinv, ?_⟩
            rcases hpass with ⟨hquiet, hflag, hall⟩ | hloud
            · refine .inl ⟨hquiet, hflag, fun _ nt' o' rep' hnt' hop' hrep' csid hcsid => ?_⟩
              obtain rfl := Option.some.inj (hnt.symm.trans hnt')
              obtain rfl := Option.some.inj (hop.symm.trans hop')
              obtain rfl := Option.some.inj (hrep.symm.trans hrep')
              exact hall csid hcsid
            · exact .inr hloud
  exact ⟨fun _ => rfl, fun h h' => h'.trans h, fun h => by unfold unasked; rw [h], fun h hdone => by rw [h]; exact hdone,
    fun hx _ hoperand => (hstep hx hoperand).1, fun hx _ hoperand => (hstep hx hoperand).2⟩

theorem rule_passing (hG : Narrow G) (h : Sound schema order aut) {t : TransitionRecord} (ht : t ∈ aut.transitions)
    (dest_demand : NontermBits) : Passing (fun x => Steady G aut x.demanded) (fun _ => True) Demanding.changed
      (askRule G aut t dest_demand) unasked (fun x x' => x'.demanded = x.demanded)
      (fun contributor x => RuleAsked G aut t dest_demand contributor x.demanded) := by
  have hstep : ∀ {x : Demanding}, Steady G aut x.demanded → ∀ contributor : Nat × Nat,
      Steady G aut (askRule G aut t dest_demand x contributor).demanded ∧
      ((askRule G aut t dest_demand x contributor).demanded = x.demanded ∧
        (askRule G aut t dest_demand x contributor).changed = x.changed ∧
        RuleAsked G aut t dest_demand contributor (askRule G aut t dest_demand x contributor).demanded ∨
      (askRule G aut t dest_demand x contributor).changed = true ∧
        unasked (askRule G aut t dest_demand x contributor) < unasked x) := by
    intro x hx contributor
    unfold askRule
    cases hhas : has dest_demand contributor.1 with
    | false => exact ⟨hx, .inl ⟨rfl, rfl, fun hhas' => by rw [hhas] at hhas'; cases hhas'⟩⟩
    | true =>
      rw [if_pos rfl]
      cases hfind : G.rules.find? fun r => r.rule_number == contributor.2 with
      | none => exact ⟨hx, .inl ⟨rfl, rfl, fun _ r hfind' => by rw [hfind] at hfind'; cases hfind'⟩⟩
      | some r =>
        dsimp only
        cases hchain : G.isNonterm r.pattern with
        | true => exact ⟨hx, .inl ⟨rfl, rfl, fun _ r' hfind' hchain' => by
            obtain rfl := Option.some.inj (hfind.symm.trans hfind')
            rw [hchain] at hchain'
            cases hchain'⟩⟩
        | false =>
          rw [if_neg Bool.false_ne_true]
          by_cases hlength : r.pattern.children.length = t.child_reps.length
          · rw [if_neg (not_not.mpr hlength)]
            obtain ⟨hinv, hpass⟩ := foldl_passing (operand_passing hG h ht) (l := r.pattern.children.zipIdx)
              (fun operand hoperand => by
                obtain ⟨p, k⟩ := operand
                have hk := List.snd_lt_of_mem_zipIdx hoperand
                rw [← hlength]
                exact hk) hx
            refine ⟨hinv, ?_⟩
            rcases hpass with ⟨hquiet, hflag, hall⟩ | hloud
            · refine .inl ⟨hquiet, hflag, fun _ r' hfind' _ _ operand hoperand => ?_⟩
              obtain rfl := Option.some.inj (hfind.symm.trans hfind')
              exact hall operand hoperand
            · exact .inr hloud
          · rw [if_pos hlength]
            refine ⟨hx, .inl ⟨rfl, rfl, fun _ r' hfind' _ hlength' => ?_⟩⟩
            obtain rfl := Option.some.inj (hfind.symm.trans hfind')
            exact absurd hlength' hlength
  exact ⟨fun _ => rfl, fun h h' => h'.trans h, fun h => by unfold unasked; rw [h], fun h hdone => by rw [h]; exact hdone,
    fun hx contributor _ => (hstep hx contributor).1, fun hx contributor _ => (hstep hx contributor).2⟩

theorem transition_passing (hG : Narrow G) (h : Sound schema order aut) :
    Passing (fun x => Steady G aut x.demanded) (fun t => t ∈ aut.transitions) Demanding.changed (askTransition G aut)
      unasked (fun x x' => x'.demanded = x.demanded) (fun t x => Asked G aut t x.demanded) := by
  have hstep : ∀ {x : Demanding}, Steady G aut x.demanded → ∀ {t : TransitionRecord}, t ∈ aut.transitions →
      Steady G aut (askTransition G aut x t).demanded ∧
      ((askTransition G aut x t).demanded = x.demanded ∧ (askTransition G aut x t).changed = x.changed ∧
        Asked G aut t (askTransition G aut x t).demanded ∨
      (askTransition G aut x t).changed = true ∧ unasked (askTransition G aut x t) < unasked x) := by
    intro x hx t ht
    unfold askTransition
    dsimp only
    by_cases hzero : x.demanded.getD t.dest 0#64 = 0#64
    · rw [if_pos hzero]
      refine ⟨hx, .inl ⟨rfl, rfl, fun st _ contributor _ hhas => ?_⟩⟩
      rw [hzero, has_zero] at hhas
      cases hhas
    · rw [if_neg hzero]
      obtain ⟨hinv, hpass⟩ := foldl_passing (rule_passing hG h ht (x.demanded.getD t.dest 0#64))
        (l := (aut.states[t.dest]?.map State.contributors).getD []) (fun _ _ => trivial) hx
      refine ⟨hinv, ?_⟩
      rcases hpass with ⟨hquiet, hflag, hall⟩ | hloud
      · refine .inl ⟨hquiet, hflag, fun st hst contributor hcontributor => ?_⟩
        rw [hst, Option.map_some, Option.getD_some] at hall hquiet ⊢
        have hdone := hall contributor hcontributor
        rw [hquiet] at hdone ⊢
        exact hdone
      · exact .inr hloud
  exact ⟨fun _ => rfl, fun h h' => h'.trans h, fun h => by unfold unasked; rw [h], fun h hdone => by rw [h]; exact hdone,
    fun hx _ ht => (hstep hx ht).1, fun hx _ ht => (hstep hx ht).2⟩

theorem goalIndices_bound (hG : Narrow G) {g : Nat} (hg : g ∈ goalIndices G) : 1 ≤ g ∧ g ≤ 64 := by
  unfold goalIndices at hg
  cases hstart : ntIndex G G.startNonterm with
  | none =>
    rw [hstart] at hg
    exact absurd hg List.not_mem_nil
  | some start =>
    rw [hstart] at hg
    rcases List.mem_cons.mp hg with rfl | hg
    · exact ⟨(ntIndex_get hstart).1, hG.le hstart⟩
    · obtain ⟨e, -, he⟩ := List.mem_filterMap.mp (List.mem_filter.mp hg).1
      exact ⟨(ntIndex_get he).1, hG.le he⟩

theorem foldl_goals (bits : NontermBits) (goals : List Nat) (hgoals : ∀ g ∈ goals, 1 ≤ g ∧ g ≤ 64) : ∀ d : NontermBits,
    (∀ i, has d i = true → has (goals.foldl (fun d g => if has bits g then d ||| bit g else d) d) i = true) ∧
      ∀ g ∈ goals, has bits g = true →
        has (goals.foldl (fun d g => if has bits g then d ||| bit g else d) d) g = true := by
  induction goals with
  | nil => exact fun d => ⟨fun _ h => h, fun g hg => absurd hg List.not_mem_nil⟩
  | cons g goals ih =>
    intro d
    rw [List.foldl_cons]
    obtain ⟨hkept, hall⟩ := ih (fun g' hg' => hgoals g' (List.mem_cons_of_mem _ hg'))
      (if has bits g then d ||| bit g else d)
    have hg := hgoals g List.mem_cons_self
    refine ⟨fun i hi => hkept i ?_, fun g' hg' hhas => ?_⟩
    · split
      · rw [has_or, hi, Bool.true_or]
      · exact hi
    · rcases List.mem_cons.mp hg' with rfl | hg'
      · refine hkept g' ?_
        rw [if_pos hhas]
        exact (has_or_bit hg.1 hg.1 hg.2).mpr (.inr rfl)
      · exact hall g' hg' hhas

theorem seedDemand_steady (hG : Narrow G) : Steady G aut (aut.states.map (seedDemand G)) where
  length := List.length_map _
  seeds := fun s st hst g hg hhas => by
    have hgoals := (foldl_goals st.key.bits (goalIndices G) (fun _ => goalIndices_bound hG) 0#64).2 g hg hhas
    rw [List.getD_eq_getElem?_getD, List.getElem?_map, hst, Option.map_some, Option.getD_some]
    unfold seedDemand
    dsimp only
    split
    · exact chainDemandClose_subset hgoals
    · exact hgoals
  closed := fun s => by
    have hzero : DemandClosed G 0#64 := fun cr _ i j _ _ hhas => by
      rw [has_zero] at hhas
      cases hhas
    rw [List.getD_eq_getElem?_getD, List.getElem?_map]
    cases aut.states[s]? with
    | none => exact hzero
    | some st =>
      rw [Option.map_some, Option.getD_some]
      unfold seedDemand
      dsimp only
      split
      · exact chainDemandClose_done hG
      · next hnot =>
        rw [not_not] at hnot
        rw [hnot]
        exact hzero

/-- **The demands settle**, with nothing left to ask for. -/
theorem computeDemand_spec (hG : Narrow G) (h : Sound schema order aut) : ∃ demanded,
    Settles (computeDemand G aut) demanded ∧ Steady G aut demanded ∧
      ∀ t ∈ aut.transitions, Asked G aut t demanded := by
  obtain ⟨x, hsettles, hsteady, hasked⟩ := passes_settle (fun x : Demanding => { x with changed := false })
    aut.transitions (transition_passing hG h) (fun _ ht => ht) (fun _ hx => ⟨hx, rfl, rfl⟩)
    (s := { demanded := aut.states.map (seedDemand G), changed := true }) (seedDemand_steady hG)
  exact ⟨x.demanded, hsettles.map Demanding.demanded, hsteady, hasked⟩

/-! ## Live rules -/

/-- The rule contributes to something asked for. -/
def Live (aut : Automaton) (demanded : List NontermBits) (r : Rule) : Prop :=
  ∃ (s : Nat) (st : State) (i : Nat), aut.states[s]? = some st ∧ (i, r.rule_number) ∈ st.contributors ∧
    has (demanded.getD s 0#64) i = true

variable {demanded : List NontermBits}

theorem Live.not_dead {r : Rule} (h : Live aut demanded r) (hlength : demanded.length = aut.states.length) :
    r ∉ deadRules G aut demanded := by
  obtain ⟨s, st, i, hst, hmem, hhas⟩ := h
  have hs : s < demanded.length := hlength.symm ▸ (List.getElem?_eq_some_iff.mp hst).1
  have hget := List.getElem?_eq_getElem hs
  rw [List.getD_eq_getElem?_getD, hget, Option.getD_some] at hhas
  have hlive : r.rule_number ∈ liveRules aut demanded := by
    unfold liveRules
    refine List.mem_flatMap.mpr ⟨(st, demanded[s]), List.mem_of_getElem? (List.getElem?_zip_eq_some.mpr ⟨hst, hget⟩), ?_⟩
    dsimp only
    rw [if_neg (fun hzero => by rw [hzero, has_zero] at hhas; cases hhas)]
    exact List.mem_map.mpr ⟨(i, r.rule_number), List.mem_filter.mpr ⟨hmem, hhas⟩, rfl⟩
  intro hdead
  unfold deadRules at hdead
  rw [List.mem_filter] at hdead
  simp [hlive] at hdead

/-! ## Grammars -/

/-- Patterns have no operators below the root, and a terminal among their operands has a rule of its own. -/
structure Flat (G : Spec) : Prop where
  leaves : ∀ r ∈ G.rules, ∀ p ∈ r.pattern.children, p.isLeaf = true
  constants : ∀ r ∈ G.rules, ∀ p ∈ r.pattern.children, G.isTerminal p.name = true →
    ∃ q ∈ G.rules, q.pattern.name = p.name ∧ q.pattern.isLeaf = true

theorem nonterm_seen {r : Rule} (hr : r ∈ G.rules) : r.nonterm ∈ G.seenNonterms := by
  have hgrow : ∀ (rules : List Rule) (seen : List String) (x : String), (x ∈ seen ∨ ∃ q ∈ rules, q.nonterm = x) →
      x ∈ rules.foldl (fun seen r =>
        let seen := if r.nonterm ∈ seen then seen else seen ++ [r.nonterm]
        if G.isNonterm r.pattern ∧ r.pattern.name ∉ seen then seen ++ [r.pattern.name] else seen) seen := by
    intro rules
    induction rules with
    | nil =>
      rintro seen x (hx | ⟨q, hq, -⟩)
      · exact hx
      · exact absurd hq List.not_mem_nil
    | cons q rules ih =>
      intro seen x hx
      have hadd : ∀ {y : String}, y ∈ seen ∨ y = q.nonterm → y ∈ (if G.isNonterm q.pattern ∧ q.pattern.name ∉
          (if q.nonterm ∈ seen then seen else seen ++ [q.nonterm]) then
          (if q.nonterm ∈ seen then seen else seen ++ [q.nonterm]) ++ [q.pattern.name]
          else (if q.nonterm ∈ seen then seen else seen ++ [q.nonterm])) := by
        intro y hy
        have hfirst : y ∈ (if q.nonterm ∈ seen then seen else seen ++ [q.nonterm]) := by
          split
          · next hmem =>
            rcases hy with hy | rfl
            · exact hy
            · exact hmem
          · rcases hy with hy | rfl
            · exact List.mem_append_left _ hy
            · exact List.mem_append_right _ (List.mem_singleton_self _)
        generalize (if q.nonterm ∈ seen then seen else seen ++ [q.nonterm]) = first at hfirst ⊢
        split
        · exact List.mem_append_left _ hfirst
        · exact hfirst
      rw [List.foldl_cons]
      refine ih _ x ?_
      rcases hx with hx | ⟨q', hq', rfl⟩
      · exact .inl (hadd (.inl hx))
      · rcases List.mem_cons.mp hq' with rfl | hq'
        · exact .inl (hadd (.inr rfl))
        · exact .inr ⟨q', hq', rfl⟩
  exact hgrow G.rules [] r.nonterm (.inr ⟨r, hr, rfl⟩)

theorem nonterm_index {r : Rule} (hr : r ∈ G.rules) : ∃ i, ntIndex G r.nonterm = some i := by
  refine exists_ntIndex ?_
  unfold Spec.nonterms
  split
  · by_cases hstart : r.nonterm = G.start
    · rw [hstart]
      exact List.mem_cons_self
    · exact List.mem_cons_of_mem _ ((List.mem_erase_of_ne hstart).mpr (nonterm_seen hr))
  · exact nonterm_seen hr

theorem accepted_start (h : G.accepted = true) : ∃ i, ntIndex G G.startNonterm = some i := by
  unfold Spec.accepted at h
  rw [Bool.and_eq_true, Bool.and_eq_true] at h
  exact exists_ntIndex (by simpa using h.1.2)

theorem accepted_root (h : G.accepted = true) {r : Rule} (hr : r ∈ G.rules) (hchain : G.isNonterm r.pattern = false) :
    G.isTerminal r.pattern.name = true := by
  unfold Spec.isNonterm at hchain
  cases hleaf : r.pattern.isLeaf with
  | true =>
    rw [hleaf, Bool.true_and, Bool.not_eq_false'] at hchain
    exact hchain
  | false =>
    by_contra hnot
    rw [Bool.not_eq_true] at hnot
    unfold Spec.accepted at h
    rw [Bool.and_eq_true, Bool.and_eq_true, List.isEmpty_iff] at h
    have herrors := h.1.1
    unfold Spec.errors at herrors
    simp only [List.append_eq_nil_iff, List.flatMap_eq_nil_iff] at herrors
    have hrule := (herrors.1.1.1.2 r hr).1
    rw [hleaf, hnot] at hrule
    cases hrule

theorem start_goal (hi : ntIndex G G.startNonterm = some i) : i ∈ goalIndices G := by
  unfold goalIndices
  rw [hi]
  exact List.mem_cons_self

theorem entry_goal (h : G.accepted = true) {e : String} (he : e ∈ G.entries) (hi : ntIndex G e = some i) :
    i ∈ goalIndices G := by
  obtain ⟨start, hstart⟩ := accepted_start h
  unfold goalIndices
  rw [hstart]
  by_cases heq : i = start
  · subst heq
    exact List.mem_cons_self
  · exact List.mem_cons_of_mem _ (List.mem_filter.mpr ⟨List.mem_filterMap.mpr ⟨e, he, hi⟩, by simpa using heq⟩)

/-! ## Derivations -/

variable {α : Type} {guard : Rule → Node α → Bool}

theorem frontier_chain {p : TreePattern} (hp : G.isNonterm p = true) (u : Node α) :
    frontier G p u = some [(u, p.name)] := by
  obtain ⟨name, children⟩ := p
  unfold Spec.isNonterm at hp
  rw [Bool.and_eq_true, Bool.not_eq_true'] at hp
  unfold frontier
  rw [if_pos ⟨hp.1, by rw [show G.isTerminal name = false from hp.2]; exact Bool.false_ne_true⟩]
  rfl

theorem not_chain {name : String} {children : List TreePattern} (hp : G.isNonterm (.mk name children) = false) :
    ¬ (children.isEmpty = true ∧ ¬ G.isTerminal name = true) := by
  rintro ⟨hempty, hterm⟩
  unfold Spec.isNonterm at hp
  rw [show TreePattern.isLeaf (.mk name children) = true from hempty, Bool.true_and, Bool.not_eq_false'] at hp
  exact hterm hp

theorem frontier_other {p : TreePattern} (hp : G.isNonterm p = false) {u : Node α} (hop : u.op ≠ p.name) :
    frontier G p u = none := by
  obtain ⟨name, children⟩ := p
  unfold frontier
  rw [if_neg (not_chain hp)]
  exact if_pos hop

theorem frontier_below {p : TreePattern} (hp : G.isNonterm p = false) {u : Node α} {goals : List (Goal α)}
    (h : frontier G p u = some goals) : frontiers G p.children u.children = some goals := by
  obtain ⟨name, children⟩ := p
  unfold frontier at h
  rw [if_neg (not_chain hp)] at h
  split at h
  · cases h
  · split at h
    · cases h
    · exact h

/-- Asked for at some state, all rules of the derivation are live. -/
def Realised (G : Spec) (aut : Automaton) (demanded : List NontermBits) (d : Cover α) : Prop :=
  ∃ (s : Nat) (st : State) (i : Nat), aut.states[s]? = some st ∧ ntIndex G d.rule.nonterm = some i ∧
    has st.key.bits i = true ∧ (has (demanded.getD s 0#64) i = true → ∀ a ∈ d.actions, Live aut demanded a.1)

/-- A derivation of a goal is asked for. -/
theorem Realised.live {d : Cover α} (h : Realised G aut demanded d) (hd : Steady G aut demanded)
    (hgoal : ∀ i, ntIndex G d.rule.nonterm = some i → i ∈ goalIndices G) : ∀ a ∈ d.actions, Live aut demanded a.1 := by
  obtain ⟨s, st, i, hst, hi, hhas, hlive⟩ := h
  exact hlive (hd.seeds s st hst i (hgoal i hi) hhas)

section Induction

variable {P : Cover α → Prop}

mutual

/-- **Induction on a derivation.** -/
theorem valid_induction (hstep : ∀ (r : Rule) (u : Node α) (subs : List (Cover α)), r ∈ G.rules →
    frontier G r.pattern u = some (subs.map Cover.goal) → (∀ d ∈ subs, P d) → P (.mk r u subs)) :
    ∀ d : Cover α, d.Valid G guard → P d
  | .mk r u subs, h => hstep r u subs h.1 h.2.2.1 (valid_induction_all hstep subs h.2.2.2)

theorem valid_induction_all (hstep : ∀ (r : Rule) (u : Node α) (subs : List (Cover α)), r ∈ G.rules →
    frontier G r.pattern u = some (subs.map Cover.goal) → (∀ d ∈ subs, P d) → P (.mk r u subs)) :
    ∀ ds : List (Cover α), Cover.ValidAll G guard ds → ∀ d ∈ ds, P d
  | [], _, _, hd => absurd hd List.not_mem_nil
  | d :: ds, h, d', hd' => (List.mem_cons.mp hd').elim (fun heq => heq ▸ valid_induction hstep d h.1)
      (valid_induction_all hstep ds h.2 d')

end

end Induction

theorem mem_actionsAll {ds : List (Cover α)} {a : Rule × Node α} :
    a ∈ Cover.actionsAll ds ↔ ∃ d ∈ ds, a ∈ d.actions := by
  induction ds with
  | nil => simp [Cover.actionsAll]
  | cons d ds ih =>
    unfold Cover.actionsAll
    rw [List.mem_append, ih, List.exists_mem_cons_iff]

theorem goal_eq {d : Cover α} {u : Node α} {nt : String} (h : d.goal = (u, nt)) : d.rule.nonterm = nt :=
  congrArg Prod.snd h

/-- The chain rules at a state contribute to what they derive. -/
theorem Sound.chain (h : Sound schema order aut) (hG : Narrow G) {s : Nat} {st : State} (hst : aut.states[s]? = some st)
    {cr : Rule} (hcr : cr ∈ G.chainRules) : ChainDone G cr st.key.bits st.contributors := by
  obtain ⟨t, ht, hdest⟩ := h.born s (List.getElem?_eq_some_iff.mp hst).1
  obtain ⟨st', hst', hkey, hsub⟩ := h.leads t ht
  rw [hdest] at hst'
  obtain rfl := Option.some.inj (hst.symm.trans hst')
  intro i j hi hj hhas
  rw [hkey] at hhas ⊢
  obtain ⟨hto, hmem⟩ := transition_chain hG cr hcr i j hi hj hhas
  exact ⟨hto, hsub hmem⟩

/-- **The operands of a pattern** lie on states that it matches. Once these are asked for, all below is live. -/
theorem operands_realised (hsteady : Steady G aut demanded) (ps : List TreePattern) :
    ∀ {us : List (Node α)} {ds : List (Cover α)}, (∀ p ∈ ps, p.isLeaf = true) →
      (∀ p ∈ ps, G.isTerminal p.name = true →
        ∃ (s : Nat) (st : State), aut.states[s]? = some st ∧ st.key.terminal = p.name) →
      frontiers G ps us = some (ds.map Cover.goal) → (∀ d ∈ ds, Realised G aut demanded d) →
      ∃ ids : List Nat, ids.length = ps.length ∧
        (∀ (k : Nat) (p : TreePattern) (s : Nat), ps[k]? = some p → ids[k]? = some s →
          ∃ st : State, aut.states[s]? = some st ∧ operandMatches G p st.key.whole = true) ∧
        ((∀ (k : Nat) (p : TreePattern) (s i : Nat), ps[k]? = some p → ids[k]? = some s → G.isNonterm p = true →
          ntIndex G p.name = some i → has (demanded.getD s 0#64) i = true) →
          ∀ d ∈ ds, ∀ a ∈ d.actions, Live aut demanded a.1) := by
  have hstarts : ∀ {us : List (Node α)} {ds : List (Cover α)},
      us.map (fun u => (u, G.startNonterm)) = ds.map Cover.goal → (∀ d ∈ ds, Realised G aut demanded d) →
      ∀ d ∈ ds, ∀ a ∈ d.actions, Live aut demanded a.1 := by
    intro us ds hgoals hds d hd
    have hmem : d.goal ∈ us.map fun u => (u, G.startNonterm) := hgoals ▸ List.mem_map_of_mem hd
    obtain ⟨u, -, hgoal⟩ := List.mem_map.mp hmem
    refine (hds d hd).live hsteady fun i hi => start_goal ?_
    rw [← goal_eq hgoal.symm]
    exact hi
  induction ps with
  | nil =>
    intro us ds _ _ hfrontiers hds
    unfold frontiers at hfrontiers
    exact ⟨[], rfl, fun k p s hp => by simp at hp, fun _ => hstarts (Option.some.inj hfrontiers) hds⟩
  | cons p ps ih =>
    intro us ds hleaves hconstants hfrontiers hds
    cases us with
    | nil =>
      unfold frontiers at hfrontiers
      cases hfrontiers
    | cons u us =>
      unfold frontiers at hfrontiers
      rw [Option.bind_eq_some_iff] at hfrontiers
      obtain ⟨goals, hgoals, hrest⟩ := hfrontiers
      rw [Option.map_eq_some_iff] at hrest
      obtain ⟨rest, hrest, happend⟩ := hrest
      obtain ⟨ds₁, ds₂, rfl, rfl, rfl⟩ := List.map_eq_append_iff.mp happend.symm
      obtain ⟨ids, hlength, hmatch, hlive⟩ := ih (fun q hq => hleaves q (List.mem_cons_of_mem _ hq))
        (fun q hq => hconstants q (List.mem_cons_of_mem _ hq)) hrest (fun d hd => hds d (List.mem_append_right _ hd))
      -- the state the first operand lies on
      have hfirst : ∃ (s : Nat) (st : State), aut.states[s]? = some st ∧ operandMatches G p st.key.whole = true ∧
          ((∀ i, G.isNonterm p = true → ntIndex G p.name = some i → has (demanded.getD s 0#64) i = true) →
            ∀ d ∈ ds₁, ∀ a ∈ d.actions, Live aut demanded a.1) := by
        cases hkind : G.isNonterm p with
        | true =>
          rw [frontier_chain hkind] at hgoals
          obtain ⟨d, rfl, hgoal⟩ := List.map_eq_singleton_iff.mp (Option.some.inj hgoals).symm
          obtain ⟨s, st, i, hst, hi, hhas, hd⟩ := hds d (List.mem_append_left _ (List.mem_singleton_self d))
          rw [goal_eq hgoal] at hi
          refine ⟨s, st, hst, (operandMatches_nonterm hkind _).mpr ⟨i, hi, hhas⟩, fun hasked d' hd' => ?_⟩
          obtain rfl := List.mem_singleton.mp hd'
          exact hd (hasked i rfl hi)
        | false =>
          have hleaf := hleaves p List.mem_cons_self
          have hterm : G.isTerminal p.name = true := by
            unfold Spec.isNonterm at hkind
            rw [hleaf, Bool.true_and, Bool.not_eq_false'] at hkind
            exact hkind
          have hbelow := frontier_below hkind hgoals
          rw [List.isEmpty_iff.mp hleaf] at hbelow
          unfold frontiers at hbelow
          obtain ⟨s, st, hst, hname⟩ := hconstants p List.mem_cons_self hterm
          exact ⟨s, st, hst, (operandMatches_term hkind _).mpr hname,
            fun _ => hstarts (Option.some.inj hbelow) fun d hd => hds d (List.mem_append_left _ hd)⟩
      obtain ⟨s, st, hst, hp, hlive₁⟩ := hfirst
      refine ⟨s :: ids, by rw [List.length_cons, List.length_cons, hlength], fun k q s' hq hs' => ?_,
        fun hasked d hd => ?_⟩
      · cases k with
        | zero =>
          obtain rfl := Option.some.inj hq
          obtain rfl := Option.some.inj hs'
          exact ⟨st, hst, hp⟩
        | succ k => exact hmatch k q s' hq hs'
      · rcases List.mem_append.mp hd with hd | hd
        · exact hlive₁ (fun i hkind hi => hasked 0 p s i rfl rfl hkind hi) d hd
        · exact hlive (fun k q s' i hq hs' hkind hi => hasked (k + 1) q s' i hq hs' hkind hi) d hd

/-- The operator of a pattern with operands. -/
theorem exists_op {name : String} {n : Nat} (hmem : (name, n) ∈ order.pairs) (hn : n ≠ 0) : ∃ (o : Nat) (op : OpInfo),
    (opTable G none order)[o]? = some op ∧ op.term = name ∧ op.dims.length = n ∧
      ∀ (k : Nat) (dim : OpDim), op.dims[k]? = some dim →
        dim.matched = ruleDemand G name n k ∧ dim.enumerated = ruleDemand G name n k := by
  have hop : ({ term := name, dims := (List.range n).map fun i =>
      { matched := ruleDemand G name n i, enumerated := positionDemand G none name n i } } : OpInfo) ∈
        opTable G none order := by
    unfold opTable
    exact List.mem_map.mpr ⟨(name, n), List.mem_filter.mpr ⟨hmem, by simpa using hn⟩, rfl⟩
  obtain ⟨o, ho⟩ := List.mem_iff_getElem?.mp hop
  refine ⟨o, _, ho, rfl, by rw [List.length_map, List.length_range], fun k dim hdim => ?_⟩
  rw [List.getElem?_map, Option.map_eq_some_iff] at hdim
  obtain ⟨k', hk', rfl⟩ := hdim
  obtain ⟨-, rfl⟩ := List.getElem?_eq_some_iff.mp hk'
  rw [List.getElem_range]
  exact ⟨rfl, rfl⟩

theorem ruleMatches_of {r : Rule} {term : String} {tuple : List RepKey} (hname : r.pattern.name = term)
    (hlength : r.pattern.children.length = tuple.length)
    (hall : ∀ (k : Nat) (p : TreePattern) (key : RepKey), r.pattern.children[k]? = some p → tuple[k]? = some key →
      operandMatches G p key = true) : ruleMatches G r term tuple = true := by
  unfold ruleMatches
  rw [Bool.and_eq_true, Bool.and_eq_true, List.all_eq_true]
  refine ⟨⟨beq_iff_eq.mpr hname, beq_iff_eq.mpr hlength⟩, fun x hx => ?_⟩
  obtain ⟨p, key⟩ := x
  obtain ⟨k, hk⟩ := List.mem_iff_getElem?.mp hx
  rw [List.getElem?_zip_eq_some] at hk
  exact hall k p key hk.1 hk.2

section Derivations

variable (haccepted : G.accepted = true) (hG : Narrow G) (hflat : Flat G) (hworking : Working none order aut)
  (hempty : aut.worklist = []) (hsteady : Steady G aut demanded) (hasked : ∀ t ∈ aut.transitions, Asked G aut t demanded)

include hworking in
/-- A terminal that has a rule without operands has a state. -/
theorem constant_state {name : String} (hmem : (name, 0) ∈ order.pairs) : ∃ t ∈ aut.transitions, ∃ st : State,
    t.op = none ∧ aut.states[t.dest]? = some st ∧
      st.key = { terminal := name, bits := (computeTransition G name []).1 } ∧
        (computeTransition G name []).2 ⊆ st.contributors := by
  obtain ⟨t, ht, hop, hterm⟩ := hworking.seeded _ hmem rfl
  obtain ⟨st, hst, hkey, hsub⟩ := hworking.sound.leads t ht
  unfold keysOf at hkey hsub
  rw [hop, hterm] at hkey hsub
  exact ⟨t, ht, st, hop, hst, hkey, hsub⟩

/-- A rule that contributes to what is asked for is live, and so is all below if it is. -/
theorem live_actions {r : Rule} {u : Node α} {subs : List (Cover α)} {s : Nat} {st : State}
    (hst : aut.states[s]? = some st)
    (hmem : (j, r.rule_number) ∈ st.contributors) (hhas : has (demanded.getD s 0#64) j = true)
    (hbelow : ∀ d ∈ subs, ∀ a ∈ d.actions, Live aut demanded a.1) :
    ∀ a ∈ (Cover.mk r u subs).actions, Live aut demanded a.1 := by
  intro a ha
  unfold Cover.actions at ha
  rw [List.mem_append, List.mem_singleton, mem_actionsAll] at ha
  rcases ha with ⟨d, hd, ha⟩ | rfl
  · exact hbelow d hd a ha
  · exact ⟨s, st, j, hst, hmem, hhas⟩

include hG hworking hsteady in
/-- A chain rule is realised at the state of its source. -/
theorem realised_chain {r : Rule} {u : Node α} {subs : List (Cover α)} (hr : r ∈ G.rules)
    (hchain : G.isNonterm r.pattern = true) (hfrontier : frontier G r.pattern u = some (subs.map Cover.goal))
    (hsubs : ∀ d ∈ subs, Realised G aut demanded d) : Realised G aut demanded (.mk r u subs) := by
  obtain ⟨j, hj⟩ := nonterm_index hr
  have hcr : r ∈ G.chainRules := List.mem_filter.mpr ⟨hr, hchain⟩
  rw [frontier_chain hchain] at hfrontier
  obtain ⟨d, rfl, hgoal⟩ := List.map_eq_singleton_iff.mp (Option.some.inj hfrontier).symm
  obtain ⟨s, st, i, hst, hi, hhas, hlive⟩ := hsubs d (List.mem_singleton_self d)
  rw [goal_eq hgoal] at hi
  obtain ⟨hto, hmem⟩ := hworking.sound.chain hG hst hcr i j hi hj hhas
  refine ⟨s, st, j, hst, hj, hto, fun hdemand => live_actions hst hmem hdemand fun d' hd' => ?_⟩
  obtain rfl := List.mem_singleton.mp hd'
  exact hlive (hsteady.closed s r hcr i j hi hj hdemand)

include hG hworking in
/-- A rule without operands is realised at the state of its terminal. -/
theorem realised_constant {r : Rule} {u : Node α} {subs : List (Cover α)} (hr : r ∈ G.rules)
    (hroot : (r.pattern.name, 0) ∈ order.pairs) (hzero : r.pattern.children = [])
    (hbelow : ∀ d ∈ subs, ∀ a ∈ d.actions, Live aut demanded a.1) : Realised G aut demanded (.mk r u subs) := by
  obtain ⟨j, hj⟩ := nonterm_index hr
  obtain ⟨t, ht, st, -, hst, hkey, hsub⟩ := constant_state hworking hroot
  have hproduces : Produces G r.pattern.name [] r j :=
    ⟨ruleMatches_of rfl (by rw [hzero]; rfl) fun k p key _ hkey => by simp at hkey, hj⟩
  obtain ⟨hhas, hmem⟩ := transition_contributes hG hr hproduces
  exact ⟨t.dest, st, j, hst, hj, by rw [hkey]; exact hhas, fun hdemand => live_actions hst (hsub hmem) hdemand hbelow⟩

/-- Rules are looked up by their numbers. -/
theorem find_rule {r : Rule} (hr : r ∈ G.rules) :
    (G.rules.find? fun q => q.rule_number == r.rule_number) = some r := by
  cases hq : G.rules.find? fun q => q.rule_number == r.rule_number with
  | none =>
    rw [List.find?_eq_none] at hq
    exact absurd (beq_self_eq_true r.rule_number) (hq r hr)
  | some q =>
    have hsome := List.find?_some hq
    rw [beq_iff_eq] at hsome
    rw [Spec.rule_number_inj (List.mem_of_find?_eq_some hq) hr hsome]

include hG hworking hempty hasked in
/-- A rule with operands is realised at the transition on the classes of the states that they lie on. -/
theorem realised_operator {r : Rule} {u : Node α} {subs : List (Cover α)} (hr : r ∈ G.rules)
    (hchain : G.isNonterm r.pattern = false) (hroot : (r.pattern.name, r.pattern.children.length) ∈ order.pairs)
    (hsome : r.pattern.children ≠ []) {ids : List Nat} (hids : ids.length = r.pattern.children.length)
    (hmatch : ∀ (k : Nat) (p : TreePattern) (s : Nat), r.pattern.children[k]? = some p → ids[k]? = some s →
      ∃ st : State, aut.states[s]? = some st ∧ operandMatches G p st.key.whole = true)
    (hbelow : (∀ (k : Nat) (p : TreePattern) (s i : Nat), r.pattern.children[k]? = some p → ids[k]? = some s →
      G.isNonterm p = true → ntIndex G p.name = some i → has (demanded.getD s 0#64) i = true) →
      ∀ d ∈ subs, ∀ a ∈ d.actions, Live aut demanded a.1) : Realised G aut demanded (.mk r u subs) := by
  obtain ⟨j, hj⟩ := nonterm_index hr
  obtain ⟨o, op, hop, hopterm, hdims, hdemands⟩ := exists_op hroot fun h => hsome (List.length_eq_zero_iff.mp h)
  rw [← hworking.sound.table] at hop
  have hpoint : ∀ s : Nat, ∃ key : StateKey, ∀ st : State, aut.states[s]? = some st → st.key = key := by
    intro s
    cases hst : aut.states[s]? with
    | none => exact ⟨{ terminal := "", bits := 0#64 }, fun st h => by cases h⟩
    | some st => exact ⟨st.key, fun st' h => by rw [Option.some.inj h]⟩
  choose key hkey using hpoint
  have hoperand : ∀ (k s : Nat), ids[k]? = some s → ∃ p : TreePattern, r.pattern.children[k]? = some p ∧
      p ∈ operandsAt G r.pattern.name r.pattern.children.length k ∧
      (∃ st : State, aut.states[s]? = some st ∧ st.key = key s) ∧ operandMatches G p (key s).whole = true := by
    intro k s hs
    have hk : k < r.pattern.children.length := hids ▸ (List.getElem?_eq_some_iff.mp hs).1
    have hp := List.getElem?_eq_getElem hk
    obtain ⟨st, hst, hm⟩ := hmatch k _ s hp hs
    rw [hkey s st hst] at hm
    exact ⟨_, hp, mem_operandsAt hr rfl rfl hp, ⟨st, hst, hkey s st hst⟩, hm⟩
  obtain ⟨t, ht, hto, htterm, htlength, htkeys, htmembers⟩ := hworking.transition hempty hop ids (ids.map key)
    (hids.trans hdims.symm) (by rw [List.length_map, hids, hdims]) (fun k s key' hs hkey' => by
      rw [List.getElem?_map, hs, Option.map_some] at hkey'
      obtain rfl := Option.some.inj hkey'
      obtain ⟨p, -, -, hst, -⟩ := hoperand k s hs
      exact hst) (fun k dim key' hdim hkey' => by
      rw [List.getElem?_map, Option.map_eq_some_iff] at hkey'
      obtain ⟨s, hs, rfl⟩ := hkey'
      obtain ⟨p, -, hat, -, hm⟩ := hoperand k s hs
      exact enumerable_of_matches hG hat (hdemands k dim hdim).2 hm)
  obtain ⟨st, hst, hstkey, hsub⟩ := hworking.sound.leads t ht
  rw [htkeys, htterm, hopterm] at hstkey hsub
  have hproduces : Produces G r.pattern.name (List.zipWith project op.dims (ids.map key)) r j := by
    refine ⟨ruleMatches_of rfl ?_ fun k p repkey hp hrepkey => ?_, hj⟩
    · rw [List.length_zipWith, List.length_map, hdims, hids, Nat.min_self]
    · rw [List.getElem?_zipWith] at hrepkey
      split at hrepkey
      · next dim key' hdim hkey' =>
        rw [List.getElem?_map, Option.map_eq_some_iff] at hkey'
        obtain ⟨s, hs, rfl⟩ := hkey'
        obtain ⟨p', hp', hat, -, hm⟩ := hoperand k s hs
        obtain rfl := Option.some.inj (hp.symm.trans hp')
        obtain rfl := Option.some.inj hrepkey
        exact operandMatches_project hG hat (hdemands k dim hdim).1 hm
      · cases hrepkey
  obtain ⟨hhas, hmem⟩ := transition_contributes hG hr hproduces
  refine ⟨t.dest, st, j, hst, hj, by rw [hstkey]; exact hhas, fun hdemand => live_actions hst (hsub hmem) hdemand
    (hbelow fun k p s i hp hs hkind hi => ?_)⟩
  -- the demand reaches the class of the operand, and so the state in it
  obtain ⟨rep, hrep, hs'⟩ := htmembers k s hs
  refine hasked t ht st hst (j, r.rule_number) (hsub hmem) hdemand r (find_rule hr) hchain (htlength.trans hdims).symm
    (p, k) (List.mem_iff_getElem?.mpr ⟨k, ?_⟩) hkind i o rep hi hto hrep s hs'
  rw [List.getElem?_zipIdx, hp, Option.map_some, Nat.zero_add]

include haccepted hG hflat hworking hempty hsteady hasked in
/-- **One step of a derivation.** -/
theorem realised_step {r : Rule} {u : Node α} {subs : List (Cover α)} (hr : r ∈ G.rules)
    (hfrontier : frontier G r.pattern u = some (subs.map Cover.goal)) (hsubs : ∀ d ∈ subs, Realised G aut demanded d) :
    Realised G aut demanded (.mk r u subs) := by
  cases hchain : G.isNonterm r.pattern with
  | true => exact realised_chain hG hworking hsteady hr hchain hfrontier hsubs
  | false =>
    have hterm := accepted_root haccepted hr hchain
    have hroot : (r.pattern.name, r.pattern.children.length) ∈ order.pairs :=
      (order.complete _).mpr (List.mem_map.mpr ⟨r, List.mem_filter.mpr ⟨hr, hterm⟩, rfl⟩)
    obtain ⟨ids, hids, hmatch, hbelow⟩ := operands_realised hsteady r.pattern.children (hflat.leaves r hr)
      (fun p hp hconstant => by
        obtain ⟨q, hq, hname, hleaf⟩ := hflat.constants r hr p hp hconstant
        have hpair : (p.name, 0) ∈ order.pairs := (order.complete _).mpr (List.mem_map.mpr
          ⟨q, List.mem_filter.mpr ⟨hq, hname.symm ▸ hconstant⟩, by rw [hname, List.isEmpty_iff.mp hleaf]; rfl⟩)
        obtain ⟨t, -, st, -, hst, hkey, -⟩ := constant_state hworking hpair
        exact ⟨t.dest, st, hst, by rw [hkey]⟩) (frontier_below hchain hfrontier) hsubs
    by_cases hzero : r.pattern.children = []
    · rw [hzero, List.length_nil] at hroot
      refine realised_constant hG hworking hr hroot hzero (hbelow fun k p s i hp => ?_)
      rw [hzero] at hp
      simp at hp
    · exact realised_operator hG hworking hempty hasked hr hchain hroot hzero hids hmatch hbelow

include haccepted hG hflat hworking hempty hsteady hasked in
/-- **Every derivation is realised.** -/
theorem realised_of_valid {d : Cover α} (hd : d.Valid G guard) : Realised G aut demanded d :=
  valid_induction (fun _ _ _ hr hfrontier hsubs =>
    realised_step haccepted hG hflat hworking hempty hsteady hasked hr hfrontier hsubs) d hd

end Derivations

/-- **No rule in use is reported dead**: the analysis ends, and a rule it reports is in no derivation of the start
nonterminal or of an entry, whatever the guards say. -/
theorem dead_unused (haccepted : G.accepted = true) (hG : Narrow G) (hflat : Flat G) (order : TerminalArities G) :
    ∃ aut demanded, Settles (buildAutomaton G none order) (some aut) ∧ Settles (computeDemand G aut) demanded ∧
      ∀ {α : Type} (guard : Rule → Node α → Bool) (d : Cover α), d.Valid G guard →
        (d.rule.nonterm = G.startNonterm ∨ d.rule.nonterm ∈ G.entries) →
        ∀ r ∈ deadRules G aut demanded, ∀ a ∈ d.actions, a.1 ≠ r := by
  obtain ⟨aut, hbuild, hworking, hempty⟩ := build_spec none order hG
  obtain ⟨demanded, hsettles, hsteady, hasked⟩ := computeDemand_spec hG hworking.sound
  refine ⟨aut, demanded, hbuild, hsettles, fun {α} guard d hd hgoal r hr a ha heq => ?_⟩
  have hrealised := realised_of_valid haccepted hG hflat hworking hempty hsteady hasked hd
  have hlive := hrealised.live hsteady (fun i hi => by
    rcases hgoal with hstart | hentry
    · rw [hstart] at hi
      exact start_goal hi
    · exact entry_goal haccepted hentry hi) a ha
  rw [heq] at hlive
  exact hlive.not_dead hsteady.length hr

/-- Sums of a register and constants, and a rule that nothing asks for. -/
def sums : Spec where
  terminals := ["REG", "CONST", "ADD", "NEG"]
  start := "stmt"
  entries := []
  rules :=
    [⟨"stmt", .mk "reg" [], 0, "", "", 1⟩,
     ⟨"reg", .mk "REG" [], 0, "", "", 2⟩,
     ⟨"con", .mk "CONST" [], 1, "", "", 3⟩,
     ⟨"reg", .mk "ADD" [.mk "reg" [], .mk "CONST" []], 1, "fits", "", 4⟩,
     ⟨"reg", .mk "ADD" [.mk "reg" [], .mk "con" []], 1, "", "", 5⟩,
     ⟨"flag", .mk "NEG" [.mk "reg" []], 1, "", "", 6⟩]
  numbered := rfl

def sumsOrder : TerminalArities sums where
  pairs := [("NEG", 1), ("REG", 0), ("ADD", 2), ("CONST", 0)]
  nodup := by decide
  complete := fun _ => ⟨fun h => (by decide : ∀ p ∈ [("NEG", 1), ("REG", 0), ("ADD", 2), ("CONST", 0)],
      p ∈ rootArities sums) _ h,
    fun h => (by decide : ∀ p ∈ rootArities sums, p ∈ [("NEG", 1), ("REG", 0), ("ADD", 2), ("CONST", 0)]) _ h⟩

theorem sums_flat : Flat sums := ⟨by decide, by decide⟩

theorem sums_unused : ∃ aut demanded, Settles (buildAutomaton sums none sumsOrder) (some aut) ∧
    Settles (computeDemand sums aut) demanded ∧
      ∀ {α : Type} (guard : Rule → Node α → Bool) (d : Cover α), d.Valid sums guard →
        (d.rule.nonterm = sums.startNonterm ∨ d.rule.nonterm ∈ sums.entries) →
        ∀ r ∈ deadRules sums aut demanded, ∀ a ∈ d.actions, a.1 ≠ r :=
  dead_unused (by decide +kernel) (by decide) sums_flat sumsOrder

/-- The rules that the analysis reports, if the fuel is enough for it to end. -/
def reported (order : TerminalArities G) (fuel : Nat) : Option (List Nat) :=
  (buildAutomaton G none order fuel).bind fun built => built.bind fun aut =>
    (computeDemand G aut fuel).map fun demanded => (deadRules G aut demanded).map Rule.rule_number

example : reported sumsOrder 6 = some [6] := by decide +kernel

/-- A pattern with an operator below the root. -/
def nestedGrammar : Spec where
  terminals := ["REG", "ADD", "NEG"]
  start := "stmt"
  entries := []
  rules :=
    [⟨"stmt", .mk "ADD" [.mk "NEG" [.mk "x" []]], 0, "", "", 1⟩,
     ⟨"x", .mk "REG" [], 0, "", "", 2⟩,
     ⟨"y", .mk "NEG" [.mk "x" []], 0, "", "", 3⟩]
  numbered := rfl

def nestedOrder : TerminalArities nestedGrammar where
  pairs := [("REG", 0), ("ADD", 1), ("NEG", 1)]
  nodup := by decide
  complete := fun _ => ⟨fun h => (by decide : ∀ p ∈ [("REG", 0), ("ADD", 1), ("NEG", 1)],
      p ∈ rootArities nestedGrammar) _ h,
    fun h => (by decide : ∀ p ∈ rootArities nestedGrammar, p ∈ [("REG", 0), ("ADD", 1), ("NEG", 1)]) _ h⟩

/-- The rule for `x` is reported dead, and is in the derivation of `ADD(NEG(REG))`. -/
theorem nested_operand_reported : nestedGrammar.accepted = true ∧ reported nestedOrder 6 = some [2, 3] ∧
    ∃ d : Cover Unit, d.Valid nestedGrammar (fun _ _ => true) ∧ d.rule.nonterm = nestedGrammar.startNonterm ∧
      ∃ a ∈ d.actions, a.1.rule_number = 2 := by
  refine ⟨by decide +kernel, by decide +kernel,
    .mk ⟨"stmt", .mk "ADD" [.mk "NEG" [.mk "x" []]], 0, "", "", 1⟩ (.mk "ADD" () [.mk "NEG" () [.mk "REG" () []]])
      [.mk ⟨"x", .mk "REG" [], 0, "", "", 2⟩ (.mk "REG" () []) []], ⟨?_, rfl, rfl, ⟨?_, rfl, rfl, trivial⟩, trivial⟩,
    rfl, _, List.mem_append_left _ (List.mem_append_left _ (List.mem_singleton_self _)), rfl⟩
  · exact List.mem_cons_self
  · exact List.mem_cons_of_mem _ List.mem_cons_self

end Bbq.Burg.Completeness
