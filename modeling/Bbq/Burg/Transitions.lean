import Mathlib.Data.List.Basic
import Mathlib.Data.Finset.Card
import Mathlib.Order.Interval.Finset.Nat
import Bbq.Burg.Automaton

/-!
# Transitions

What `compute_transition` works out, and that it reads no more of a state than its class at the position.

* `has_or`, `has_and`, `has_bit`: the sets of nonterminals, one index at a time.
* `Chained`: what follows from a set by chain rules. **`chainClose_spec`**: it is what `chain_close` ends with.
* **`transition_spec`**: the bits of a transition are the left sides of the rules that match, and what follows by chain
  rules.
* **`operandMatches_project`**: a rule matches a state at a position as it matches the class the state is in.
-/

namespace Bbq.Burg.Completeness

open Bbq.Lib

variable {G : Spec} {b c : NontermBits} {i j : Nat}

/-! ## Sets of nonterminals -/

theorem has_eq (b : NontermBits) (i : Nat) : has b i = b.getLsbD (i - 1) := by
  have hbit : ∀ k, (b &&& bit i).getLsbD k = (b.getLsbD k && decide (k = i - 1)) := by
    intro k
    unfold bit
    rw [BitVec.getLsbD_and, BitVec.getLsbD_shiftLeft]
    by_cases hk : k = i - 1
    · subst hk
      by_cases hlt : i - 1 < 64
      · simp [hlt]
      · simp [BitVec.getLsbD_of_ge _ _ (not_lt.mp hlt)]
    · by_cases hlt : k < i - 1
      · simp [hk, hlt]
      · have hne : k - (i - 1) ≠ 0 := by omega
        simp [hk, hlt, hne]
  unfold has
  rw [Bool.eq_iff_iff, bne_iff_ne]
  constructor
  · intro hne
    by_contra hfalse
    refine hne (BitVec.eq_of_getLsbD_eq fun k hk => ?_)
    rw [hbit, BitVec.getLsbD_zero]
    by_cases hki : k = i - 1
    · subst hki
      rw [Bool.not_eq_true] at hfalse
      rw [hfalse, Bool.false_and]
    · rw [decide_eq_false hki, Bool.and_false]
  · intro htrue hzero
    have := hbit (i - 1)
    rw [hzero, BitVec.getLsbD_zero, htrue] at this
    simp at this

theorem has_zero (i : Nat) : has 0#64 i = false := by rw [has_eq, BitVec.getLsbD_zero]

theorem has_or (b c : NontermBits) (i : Nat) : has (b ||| c) i = (has b i || has c i) := by
  rw [has_eq, has_eq, has_eq, BitVec.getLsbD_or]

theorem has_and (b c : NontermBits) (i : Nat) : has (b &&& c) i = (has b i && has c i) := by
  rw [has_eq, has_eq, has_eq, BitVec.getLsbD_and]

theorem has_bit (hi : 1 ≤ i) (hj : 1 ≤ j) (hj' : j ≤ 64) : has (bit j) i = true ↔ i = j := by
  rw [has_eq]
  unfold bit
  rw [BitVec.getLsbD_shiftLeft]
  constructor
  · intro h
    simp at h
    omega
  · rintro rfl
    simp
    omega

theorem has_or_bit (hi : 1 ≤ i) (hj : 1 ≤ j) (hj' : j ≤ 64) : has (b ||| bit j) i = true ↔ has b i = true ∨ i = j := by
  rw [has_or, Bool.or_eq_true, has_bit hi hj hj']

theorem eq_of_has (h : ∀ i, 1 ≤ i → i ≤ 64 → has b i = has c i) : b = c := by
  refine BitVec.eq_of_getLsbD_eq fun k hk => ?_
  have := h (k + 1) (by omega) (by omega)
  rwa [has_eq, has_eq, Nat.add_sub_cancel] at this

theorem ne_zero_iff : b ≠ 0#64 ↔ ∃ i, 1 ≤ i ∧ i ≤ 64 ∧ has b i = true := by
  constructor
  · intro hne
    by_contra hnone
    refine hne (eq_of_has fun i hi hi' => ?_)
    rw [has_zero]
    by_contra hhas
    exact hnone ⟨i, hi, hi', by simpa using hhas⟩
  · rintro ⟨i, -, -, hhas⟩ rfl
    rw [has_zero] at hhas
    cases hhas

/-- The indices that are not in the set. -/
def absent (b : NontermBits) : Nat := ((Finset.Icc 1 64).filter fun i => has b i = false).card

theorem absent_le (b : NontermBits) : absent b ≤ 64 := by
  unfold absent
  refine (Finset.card_filter_le _ _).trans ?_
  rw [Nat.card_Icc]

theorem absent_lt (h : ∀ i, 1 ≤ i → i ≤ 64 → has b i = true → has c i = true) (hj : 1 ≤ j) (hj' : j ≤ 64)
    (hb : has b j = false) (hc : has c j = true) : absent c < absent b := by
  unfold absent
  refine Finset.card_lt_card ⟨fun i hi => ?_, fun hsub => ?_⟩
  · rw [Finset.mem_filter, Finset.mem_Icc] at hi ⊢
    refine ⟨hi.1, ?_⟩
    by_contra hne
    rw [h i hi.1.1 hi.1.2 (by simpa using hne)] at hi
    cases hi.2
  · have hmem := hsub (Finset.mem_filter.mpr ⟨Finset.mem_Icc.mpr ⟨hj, hj'⟩, hb⟩)
    rw [Finset.mem_filter, hc] at hmem
    cases hmem.2

theorem absent_or_bit (hj : 1 ≤ j) (hj' : j ≤ 64) (hb : has b j = false) : absent (b ||| bit j) < absent b :=
  absent_lt (fun _ hi _ h => (has_or_bit hi hj hj').mpr (.inl h)) hj hj' hb ((has_or_bit hj hj hj').mpr (.inr rfl))

/-! ## Indices -/

theorem ntIndex_get {name : String} (h : ntIndex G name = some i) :
    1 ≤ i ∧ i ≤ G.nonterms.length ∧ G.nonterms[i - 1]? = some name := by
  unfold ntIndex at h
  rw [Option.map_eq_some_iff] at h
  obtain ⟨k, hk, rfl⟩ := h
  rw [List.findIdx?_eq_some_iff_getElem] at hk
  obtain ⟨hlt, hname, -⟩ := hk
  refine ⟨by omega, by omega, ?_⟩
  rw [Nat.add_sub_cancel, List.getElem?_eq_getElem hlt, eq_of_beq hname]

theorem ntIndex_inj {name name' : String} (h : ntIndex G name = some i) (h' : ntIndex G name' = some i) :
    name = name' := by
  have hget := (ntIndex_get h).2.2
  rw [(ntIndex_get h').2.2] at hget
  exact (Option.some.inj hget).symm

theorem exists_ntIndex {name : String} (h : name ∈ G.nonterms) : ∃ i, ntIndex G name = some i := by
  unfold ntIndex
  cases hfind : G.nonterms.findIdx? (· == name) with
  | some k => exact ⟨k + 1, rfl⟩
  | none =>
    rw [List.findIdx?_eq_none_iff] at hfind
    have := hfind name h
    simp at this

/-- There is a bit for each nonterminal. -/
def Narrow (G : Spec) : Prop := G.nonterms.length ≤ maxNonterms

instance : Decidable (Narrow G) := inferInstanceAs (Decidable (G.nonterms.length ≤ maxNonterms))

theorem Narrow.le (h : Narrow G) {name : String} (hi : ntIndex G name = some i) : i ≤ 64 :=
  (ntIndex_get hi).2.1.trans h

/-! ## Chain rules -/

/-- What follows by chain rules. -/
inductive Chained (G : Spec) (P : Nat → Prop) : Nat → Prop
  | base {i : Nat} (h : P i) : Chained G P i
  | step {cr : Rule} {i j : Nat} (hcr : cr ∈ G.chainRules) (hi : ntIndex G cr.pattern.name = some i)
    (hj : ntIndex G cr.nonterm = some j) (h : Chained G P i) : Chained G P j

/-- A chain rule has nothing left to do. -/
def ChainDone (G : Spec) (cr : Rule) (b : NontermBits) (cs : Contributors) : Prop :=
  ∀ i j, ntIndex G cr.pattern.name = some i → ntIndex G cr.nonterm = some j → has b i = true →
    has b j = true ∧ (j, cr.rule_number) ∈ cs

theorem chain_passing (hG : Narrow G) : Passing (fun _ => True) (fun _ => True) Closing.changed (chainStep G)
    (fun c => absent c.bits) (fun c c' => c'.bits = c.bits ∧ c.contributors ⊆ c'.contributors)
    (fun cr c => ChainDone G cr c.bits c.contributors) where
  refl := fun _ => ⟨rfl, List.Subset.refl _⟩
  trans := fun h h' => ⟨h'.1.trans h.1, List.Subset.trans h.2 h'.2⟩
  same := fun h => by rw [h.1]
  keeps := fun h hdone i j hi hj hhas => by
    rw [h.1] at hhas ⊢
    exact ⟨(hdone i j hi hj hhas).1, h.2 (hdone i j hi hj hhas).2⟩
  stays := fun _ _ _ => trivial
  stepped := fun {s} _ {cr} _ => by
    unfold chainStep
    cases hi : ntIndex G cr.pattern.name with
    | none => exact .inl ⟨⟨rfl, List.Subset.refl _⟩, rfl, fun i j hi' => by rw [hi] at hi'; cases hi'⟩
    | some i =>
      cases hj : ntIndex G cr.nonterm with
      | none => exact .inl ⟨⟨rfl, List.Subset.refl _⟩, rfl, fun i j _ hj' => by rw [hj] at hj'; cases hj'⟩
      | some j =>
        have hindex : ∀ i' j', ntIndex G cr.pattern.name = some i' → ntIndex G cr.nonterm = some j' →
            i' = i ∧ j' = j := fun i' j' hi' hj' => by
          rw [hi] at hi'
          rw [hj] at hj'
          exact ⟨(Option.some.inj hi').symm, (Option.some.inj hj').symm⟩
        dsimp only
        cases hfrom : has s.bits i with
        | false =>
          refine .inl ⟨⟨rfl, List.Subset.refl _⟩, rfl, fun i' j' hi' hj' hhas => ?_⟩
          obtain ⟨rfl, rfl⟩ := hindex i' j' hi' hj'
          simp [hfrom] at hhas
        | true =>
          cases hto : has s.bits j with
          | true =>
            refine .inl ⟨⟨rfl, fun x hx => List.mem_insert_of_mem hx⟩, rfl, fun i' j' hi' hj' _ => ?_⟩
            obtain ⟨rfl, rfl⟩ := hindex i' j' hi' hj'
            exact ⟨by simpa using hto, List.mem_insert_self⟩
          | false =>
            refine .inr ⟨rfl, ?_⟩
            exact absent_or_bit (ntIndex_get hj).1 (hG.le hj) hto

/-- What a chain rule adds follows by chain rules. -/
theorem chainStep_sound (hG : Narrow G) {P : Nat → Prop} {cr : Rule} (hcr : cr ∈ G.chainRules) {s : Closing}
    (hs : ∀ i, 1 ≤ i → has s.bits i = true → Chained G P i) :
    ∀ i, 1 ≤ i → has (chainStep G s cr).bits i = true → Chained G P i := by
  unfold chainStep
  cases hi : ntIndex G cr.pattern.name with
  | none => exact hs
  | some i =>
    cases hj : ntIndex G cr.nonterm with
    | none => exact hs
    | some j =>
      dsimp only
      cases hfrom : has s.bits i with
      | false => exact hs
      | true =>
        cases hto : has s.bits j with
        | true => exact hs
        | false =>
          intro k hk hhas
          rcases (has_or_bit hk (ntIndex_get hj).1 (hG.le hj)).mp hhas with hhas | rfl
          · exact hs k hk hhas
          · exact .step hcr hi hj (hs i (ntIndex_get hi).1 hfrom)

/-- What one chain rule keeps, `chain_close` keeps. -/
theorem chainClose_keep {P : NontermBits × Contributors → Prop} {cs : Contributors} (h : P (b, cs))
    (hstep : ∀ s : Closing, P (s.bits, s.contributors) → ∀ cr ∈ G.chainRules,
      P ((chainStep G s cr).bits, (chainStep G s cr).contributors)) : P (chainClose G b cs) := by
  unfold chainClose
  exact passes_keep (fun c : Closing => { c with changed := false }) G.chainRules
    (P := fun c : Closing => P (c.bits, c.contributors)) (fun _ h => h) hstep _
    (s := { bits := b, contributors := cs, changed := true }) h

theorem chainClose_subset (b : NontermBits) (cs : Contributors) :
    (∀ i, has b i = true → has (chainClose G b cs).1 i = true) ∧ cs ⊆ (chainClose G b cs).2 := by
  refine chainClose_keep (P := fun p => (∀ i, has b i = true → has p.1 i = true) ∧ cs ⊆ p.2)
    ⟨fun _ h => h, List.Subset.refl _⟩ fun s hs cr _ => ?_
  unfold chainStep
  cases ntIndex G cr.pattern.name with
  | none => exact hs
  | some i =>
    cases ntIndex G cr.nonterm with
    | none => exact hs
    | some j =>
      dsimp only
      split
      · split
        · exact ⟨hs.1, fun x hx => List.mem_insert_of_mem (hs.2 hx)⟩
        · refine ⟨fun k hk => ?_, fun x hx => List.mem_insert_of_mem (hs.2 hx)⟩
          rw [has_or, hs.1 k hk, Bool.true_or]
      · exact hs

theorem chainClose_done (hG : Narrow G) {cs : Contributors} :
    ∀ cr ∈ G.chainRules, ChainDone G cr (chainClose G b cs).1 (chainClose G b cs).2 := by
  intro cr hcr
  have hn : absent b < maxNonterms + 1 := Nat.lt_succ_of_le (absent_le b)
  unfold chainClose
  generalize maxNonterms + 1 = n at hn ⊢
  exact (passes_done (fun c => { c with changed := false }) G.chainRules (chain_passing hG)
    (fun _ _ => trivial) (fun _ _ => ⟨trivial, rfl, rfl⟩)
    (s := { bits := b, contributors := cs, changed := true }) trivial hn).2 cr hcr

/-- **`chain_close`** adds what follows by chain rules. -/
theorem chainClose_iff (hG : Narrow G) {cs : Contributors} (hi : 1 ≤ i) :
    has (chainClose G b cs).1 i = true ↔ Chained G (fun i => has b i = true) i := by
  refine ⟨?_, fun h => ?_⟩
  · refine chainClose_keep (P := fun p => ∀ i, 1 ≤ i → has p.1 i = true → Chained G (fun i => has b i = true) i)
      (fun _ _ h => .base h) (fun s hs cr hcr => ?_) i hi
    exact chainStep_sound hG hcr hs
  · clear hi
    induction h with
    | base h => exact (chainClose_subset _ _).1 _ h
    | step hcr hfrom hto _ ih => exact (chainClose_done hG _ hcr _ _ hfrom hto ih).1

/-! ## Rules -/

variable {term : String} {tuple : List RepKey}

/-- A rule that matches derives the nonterminal with this index. -/
def Produces (G : Spec) (term : String) (tuple : List RepKey) (r : Rule) (i : Nat) : Prop :=
  ruleMatches G r term tuple = true ∧ ntIndex G r.nonterm = some i

theorem ruleMatches_name {r : Rule} (h : ruleMatches G r term tuple = true) : r.pattern.name = term := by
  unfold ruleMatches at h
  rw [Bool.and_eq_true, Bool.and_eq_true] at h
  exact eq_of_beq h.1.1

theorem addRule_eq {acc : NontermBits × Contributors} {r : Rule} (h : Produces G term tuple r i) :
    addRule G term tuple acc r = (acc.1 ||| bit i, acc.2.insert (i, r.rule_number)) := by
  unfold addRule
  rw [ruleMatches_name h.1, beq_self_eq_true, h.1, h.2]
  rfl

theorem addRule_quiet {acc : NontermBits × Contributors} {r : Rule} (h : ∀ i, ¬ Produces G term tuple r i) :
    addRule G term tuple acc r = acc := by
  unfold addRule
  split
  · next hmatch =>
    rw [Bool.and_eq_true] at hmatch
    cases hi : ntIndex G r.nonterm with
    | none => rfl
    | some i => exact absurd ⟨hmatch.2, hi⟩ (h i)
  · rfl

/-- What the rules that match contribute, in all. -/
theorem foldl_addRule (hG : Narrow G) (term : String) (tuple : List RepKey) (rules : List Rule) :
    ∀ acc : NontermBits × Contributors,
    (∀ i, 1 ≤ i → (has (rules.foldl (addRule G term tuple) acc).1 i = true ↔
      has acc.1 i = true ∨ ∃ r ∈ rules, Produces G term tuple r i)) ∧
    ∀ p, p ∈ (rules.foldl (addRule G term tuple) acc).2 ↔
      p ∈ acc.2 ∨ ∃ r ∈ rules, Produces G term tuple r p.1 ∧ p.2 = r.rule_number := by
  induction rules with
  | nil => exact fun acc => ⟨fun i _ => by simp, fun p => by simp⟩
  | cons r rules ih =>
    intro acc
    rw [List.foldl_cons]
    obtain ⟨hbits, hcontributors⟩ := ih (addRule G term tuple acc r)
    by_cases hr : ∃ j, Produces G term tuple r j
    · obtain ⟨j, hj⟩ := hr
      have hother : ∀ i, Produces G term tuple r i ↔ i = j :=
        fun i => ⟨fun hi => Option.some.inj (hi.2.symm.trans hj.2), fun hi => hi ▸ hj⟩
      rw [addRule_eq hj] at hbits hcontributors ⊢
      refine ⟨fun i hi => ?_, fun p => ?_⟩
      · rw [hbits i hi, has_or_bit hi (ntIndex_get hj.2).1 (hG.le hj.2), List.exists_mem_cons_iff, hother, or_assoc]
      · rw [hcontributors p, List.exists_mem_cons_iff, hother, List.mem_insert_iff, or_comm (a := p = _), or_assoc,
          Prod.ext_iff]
    · have hnone : ∀ i, ¬ Produces G term tuple r i := not_exists.mp hr
      rw [addRule_quiet hnone] at hbits hcontributors ⊢
      refine ⟨fun i hi => ?_, fun p => ?_⟩
      · rw [hbits i hi, List.exists_mem_cons_iff, iff_false_intro (hnone i), false_or]
      · rw [hcontributors p, List.exists_mem_cons_iff, iff_false_intro (hnone p.1), false_and, false_or]

/-- **The bits of a transition**: the left sides of the rules that match, and what follows by chain rules. -/
theorem transition_spec (hG : Narrow G) (hi : 1 ≤ i) :
    has (computeTransition G term tuple).1 i = true ↔
      Chained G (fun i => ∃ r ∈ G.rules, Produces G term tuple r i) i := by
  have hrules := (foldl_addRule hG term tuple G.rules (0#64, [])).1
  show has (chainClose G _ _).1 i = true ↔ _
  rw [chainClose_iff hG hi]
  have hbase : ∀ i, 1 ≤ i → (has (G.rules.foldl (addRule G term tuple) (0#64, [])).1 i = true ↔
      ∃ r ∈ G.rules, Produces G term tuple r i) := fun i hi => by
    rw [hrules i hi, has_zero]
    simp
  constructor
  · intro h
    induction h with
    | base h => exact .base ((hbase _ hi).mp h)
    | step hcr hfrom hto _ ih => exact .step hcr hfrom hto (ih (ntIndex_get hfrom).1)
  · intro h
    induction h with
    | base h => exact .base ((hbase _ hi).mpr h)
    | step hcr hfrom hto _ ih => exact .step hcr hfrom hto (ih (ntIndex_get hfrom).1)

/-- A rule that matches is a contributor. -/
theorem transition_contributes (hG : Narrow G) {r : Rule} (hr : r ∈ G.rules) (h : Produces G term tuple r i) :
    has (computeTransition G term tuple).1 i = true ∧ (i, r.rule_number) ∈ (computeTransition G term tuple).2 := by
  have hrules := foldl_addRule hG term tuple G.rules (0#64, [])
  have hclose := chainClose_subset (G := G) (G.rules.foldl (addRule G term tuple) (0#64, [])).1
    (G.rules.foldl (addRule G term tuple) (0#64, [])).2
  exact ⟨hclose.1 i ((hrules.1 i (ntIndex_get h.2).1).mpr (.inr ⟨r, hr, h⟩)),
    hclose.2 ((hrules.2 (i, r.rule_number)).mpr (.inr ⟨r, hr, h, rfl⟩))⟩

/-- So is a chain rule whose source is there. -/
theorem transition_chain (hG : Narrow G) : ∀ cr ∈ G.chainRules,
    ChainDone G cr (computeTransition G term tuple).1 (computeTransition G term tuple).2 :=
  chainClose_done hG

/-! ## Positions -/

variable {p : TreePattern} {arity : Nat} {d : PositionDemand} {dim : OpDim} {key : StateKey}

/-- All that is known of a state, as a class of its own. -/
def StateKey.whole (key : StateKey) : RepKey where
  bits := key.bits
  terminal := key.terminal

theorem operandMatches_nonterm (hp : G.isNonterm p = true) (key : RepKey) :
    operandMatches G p key = true ↔ ∃ i, ntIndex G p.name = some i ∧ has key.bits i = true := by
  unfold Spec.isNonterm at hp
  rw [Bool.and_eq_true, Bool.not_eq_true'] at hp
  unfold operandMatches
  rw [hp.1, hp.2]
  cases ntIndex G p.name with
  | none => simp
  | some i => simp

theorem operandMatches_term (hp : G.isNonterm p = false) (key : RepKey) :
    operandMatches G p key = true ↔ key.terminal = p.name := by
  unfold Spec.isNonterm at hp
  unfold operandMatches
  cases hleaf : p.isLeaf with
  | false => simp
  | true =>
    rw [hleaf, Bool.true_and, Bool.not_eq_false'] at hp
    simp [hp]

theorem addDemand_nonterm (hp : G.isNonterm p = true) (hi : ntIndex G p.name = some i) :
    addDemand G d p = { d with accepted_nts := d.accepted_nts ||| bit i } := by
  unfold Spec.isNonterm at hp
  rw [Bool.and_eq_true, Bool.not_eq_true'] at hp
  unfold addDemand
  rw [hp.1, hp.2, hi]
  rfl

theorem addDemand_none (hp : G.isNonterm p = true) (hi : ntIndex G p.name = none) : addDemand G d p = d := by
  unfold Spec.isNonterm at hp
  rw [Bool.and_eq_true, Bool.not_eq_true'] at hp
  unfold addDemand
  rw [hp.1, hp.2, hi]
  rfl

theorem addDemand_term (hp : G.isNonterm p = false) :
    addDemand G d p = { d with accepted_terms := d.accepted_terms.insert p.name } := by
  unfold Spec.isNonterm at hp
  unfold addDemand
  cases hleaf : p.isLeaf with
  | false => rfl
  | true =>
    rw [hleaf, Bool.true_and, Bool.not_eq_false'] at hp
    rw [hp]
    rfl

/-- What the operands at a position ask for, in all. -/
theorem foldl_addDemand (hG : Narrow G) (operands : List TreePattern) : ∀ d : PositionDemand,
    (∀ i, 1 ≤ i → (has (operands.foldl (addDemand G) d).accepted_nts i = true ↔ has d.accepted_nts i = true ∨
      ∃ p ∈ operands, G.isNonterm p = true ∧ ntIndex G p.name = some i)) ∧
    ∀ x, x ∈ (operands.foldl (addDemand G) d).accepted_terms ↔
      x ∈ d.accepted_terms ∨ ∃ p ∈ operands, G.isNonterm p = false ∧ p.name = x := by
  induction operands with
  | nil => exact fun d => ⟨fun i _ => by simp, fun x => by simp⟩
  | cons p operands ih =>
    intro d
    rw [List.foldl_cons]
    obtain ⟨hnts, hterms⟩ := ih (addDemand G d p)
    cases hp : G.isNonterm p with
    | false =>
      rw [addDemand_term hp] at hnts hterms ⊢
      refine ⟨fun i hi => ?_, fun x => ?_⟩
      · rw [hnts i hi, List.exists_mem_cons_iff, hp]
        simp
      · rw [hterms x, List.exists_mem_cons_iff, hp, List.mem_insert_iff, or_comm (a := x = _), or_assoc,
          eq_comm (a := x)]
        simp
    | true =>
      cases hj : ntIndex G p.name with
      | none =>
        rw [addDemand_none hp hj] at hnts hterms ⊢
        refine ⟨fun i hi => ?_, fun x => ?_⟩
        · rw [hnts i hi, List.exists_mem_cons_iff, hj]
          simp
        · rw [hterms x, List.exists_mem_cons_iff, hp]
          simp
      | some j =>
        rw [addDemand_nonterm hp hj] at hnts hterms ⊢
        refine ⟨fun i hi => ?_, fun x => ?_⟩
        · rw [hnts i hi, List.exists_mem_cons_iff, hp, hj, has_or_bit hi (ntIndex_get hj).1 (hG.le hj), or_assoc,
            eq_comm (a := i)]
          simp
        · rw [hterms x, List.exists_mem_cons_iff, hp]
          simp

theorem ruleDemand_nts (hG : Narrow G) (hi : 1 ≤ i) : has (ruleDemand G term arity j).accepted_nts i = true ↔
    ∃ p ∈ operandsAt G term arity j, G.isNonterm p = true ∧ ntIndex G p.name = some i := by
  unfold ruleDemand
  rw [(foldl_addDemand hG _ _).1 i hi, has_zero]
  simp

theorem ruleDemand_terms (hG : Narrow G) {x : String} : x ∈ (ruleDemand G term arity j).accepted_terms ↔
    ∃ p ∈ operandsAt G term arity j, G.isNonterm p = false ∧ p.name = x := by
  unfold ruleDemand
  rw [(foldl_addDemand hG _ _).2 x]
  simp

theorem mem_operandsAt {r : Rule} (hr : r ∈ G.rules) (hname : r.pattern.name = term)
    (harity : r.pattern.children.length = arity) (hp : r.pattern.children[j]? = some p) :
    p ∈ operandsAt G term arity j := by
  unfold operandsAt
  rw [List.mem_filterMap]
  exact ⟨r, List.mem_filter.mpr ⟨hr, by simp [hname, harity]⟩, hp⟩

/-- **What a rule sees of a state** is in the class the state belongs to. -/
theorem operandMatches_project (hG : Narrow G) (hp : p ∈ operandsAt G term arity j)
    (hdim : dim.matched = ruleDemand G term arity j) (h : operandMatches G p key.whole = true) :
    operandMatches G p (project dim key) = true := by
  cases hkind : G.isNonterm p with
  | false =>
    rw [operandMatches_term hkind] at h ⊢
    have hmem : key.terminal ∈ dim.matched.accepted_terms := by
      rw [hdim]
      exact (ruleDemand_terms hG).mpr ⟨p, hp, hkind, h.symm⟩
    unfold project
    dsimp only
    rw [if_pos (by simpa using hmem)]
    exact h
  | true =>
    rw [operandMatches_nonterm hkind] at h ⊢
    obtain ⟨i, hi, hhas⟩ := h
    refine ⟨i, hi, ?_⟩
    unfold project
    dsimp only
    rw [has_and, Bool.and_eq_true, hdim, ruleDemand_nts hG (ntIndex_get hi).1]
    exact ⟨hhas, p, hp, hkind, hi⟩

/-- And nothing else is, if terminals have names. -/
theorem operandMatches_of_project (hp : G.isNonterm p = false → p.name ≠ "")
    (h : operandMatches G p (project dim key) = true) : operandMatches G p key.whole = true := by
  cases hkind : G.isNonterm p with
  | false =>
    rw [operandMatches_term hkind] at h ⊢
    unfold project at h
    dsimp only at h
    split at h
    · exact h
    · exact absurd h.symm (hp hkind)
  | true =>
    rw [operandMatches_nonterm hkind] at h ⊢
    obtain ⟨i, hi, hhas⟩ := h
    unfold project at hhas
    dsimp only at hhas
    rw [has_and, Bool.and_eq_true] at hhas
    exact ⟨i, hi, hhas.1⟩

/-- A state that some rule matches at a position may stand there. -/
theorem enumerable_of_matches (hG : Narrow G) (hp : p ∈ operandsAt G term arity j)
    (hdim : dim.enumerated = ruleDemand G term arity j) (h : operandMatches G p key.whole = true) :
    enumerable dim key = true := by
  unfold enumerable
  rw [Bool.or_eq_true, bne_iff_ne, hdim]
  cases hkind : G.isNonterm p with
  | false =>
    rw [operandMatches_term hkind] at h
    have hmem : key.terminal ∈ (ruleDemand G term arity j).accepted_terms :=
      (ruleDemand_terms hG).mpr ⟨p, hp, hkind, h.symm⟩
    exact .inr (by simpa using hmem)
  | true =>
    rw [operandMatches_nonterm hkind] at h
    obtain ⟨i, hi, hhas⟩ := h
    refine .inl (ne_zero_iff.mpr ⟨i, (ntIndex_get hi).1, hG.le hi, ?_⟩)
    rw [has_and, Bool.and_eq_true, ruleDemand_nts hG (ntIndex_get hi).1]
    exact ⟨hhas, p, hp, hkind, hi⟩

end Bbq.Burg.Completeness
