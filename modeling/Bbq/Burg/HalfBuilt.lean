import Bbq.Burg.Covered

/-!
# Whether a half-built label is read

A state that is left half-built when a child is refused stays in the cache of `burg_label`, which gives it
to the next parent that asks. The guards of that parent read through it.

* `readBy` lists the children that `burg_dp` reads for a rule: those its guard comes to, and those beyond the
  pattern, whose costs are added up. `Supplied` says of a call of `burg_dp`, before it is made, that each
  child the rules over the operator come to has been labelled, and that the operators in the patterns are
  given as many children as they have operands.
* `Kept` is what a rewrite promises: it ends without reading a null pointer or a child that has not been
  labelled, and accounts for its errors (`Accounts`).
* **`rewrite_kept_iff`**: a rewrite ends, and keeps what it promises just when all its calls of `burg_dp` are
  supplied.
* `half_built_read`: one refusal below a child that two operations share.
-/

namespace Bbq.Burg

open Bbq.Lib

variable {ν : Type}

/-! ## What the programme reads -/

def Place.view : View (Place ν) := ⟨Place.children, fun t => t.2.op, fun t nt => t.2.table.rule nt ≠ 0⟩

/-- All children of the node have been labelled. Where one is missing, the programme has not been called. -/
def Place.Whole (t : Place ν) : Prop := t.2.children.length = t.1.children.length

section Definitions

variable (G : Spec) (eval : String → Node ν → Bool)

mutual

/-- The children that `emit_pattern_guards` comes to: up to the first operand that does not fit. -/
def readAll : List TreePattern → List (Place ν) → List (Place ν)
  | p :: ps, t :: ts => readOperand p t ++ if guardOperand G Place.view p t = some true then readAll ps ts else []
  | [], _ => []
  | _ :: _, [] => []

/-- One child, and what is read below it. -/
def readOperand : TreePattern → Place ν → List (Place ν)
  | .mk name ps, t => t :: if t.2.op = name then readAll ps (Place.children t) else []

end

mutual

/-- The children come to are there, and have been labelled. -/
def SuppliedAll : List TreePattern → List (Place ν) → Prop
  | [], _ => True
  | _ :: _, [] => False
  | p :: ps, t :: ts => SuppliedOperand p t ∧ (guardOperand G Place.view p t = some true → SuppliedAll ps ts)

def SuppliedOperand : TreePattern → Place ν → Prop
  | .mk name ps, t => t.Whole ∧ (t.2.op = name → SuppliedAll ps (Place.children t))

end

/-- The node with the state that `burg_dp` is given. -/
def atCall (u : Node ν) (ss : List State) : Place ν := (u, .mk u.op .init ss)

/-- The children that `burg_dp` reads for a rule: for its guard, and beyond its pattern for the cost. -/
def readBy (r : Rule) (u : Node ν) (ss : List State) : List (Place ν) :=
  (if r.pattern.children.length ≤ ss.length then readAll G r.pattern.children (atCall u ss).children else []) ++
    if patternGuard G Place.view r.pattern (atCall u ss) = some true ∧ r.holds eval u then
      (atCall u ss).children.drop r.pattern.children.length
    else []

/-- Before `burg_dp` is called: what the rules over the operator come to has been labelled. -/
def Supplied (u : Node ν) (ss : List State) : Prop :=
  ∀ r ∈ rulesByTerm G u.op,
    (r.pattern.children.length ≤ ss.length → SuppliedAll G r.pattern.children (atCall u ss).children) ∧
      (patternGuard G Place.view r.pattern (atCall u ss) = some true → r.holds eval u = true →
        ∀ t ∈ (atCall u ss).children.drop r.pattern.children.length, t.Whole)

variable [DecidableEq ν] (refuses : Nat → Bool) (Γ : Graph ν)

/-- What is promised of a rewrite from `c`: it does not stop at a null pointer, reads no child that has not been
labelled, and accounts for its errors. -/
def Kept (root : ν) (c : Context ν) : Except (Context ν) (Context ν) → Prop
  | .error _ => False
  | .ok c' => Accounts G eval refuses Γ root c c' ∧
      ∀ p ∈ programmes c'.log, ∀ r ∈ rulesByTerm G p.1.op, ∀ t ∈ readBy G eval r p.1 p.2, t.Whole

end Definitions

/-! ## Calls that are supplied -/

section Supplied

variable {G : Spec} {eval : String → Node ν → Bool} {u : Node ν} {ss : List State}

mutual

theorem suppliedAll_iff : ∀ (ps : List TreePattern) (ts : List (Place ν)), SuppliedAll G ps ts ↔
    (∃ b, emitPatternGuards G Place.view ps ts = some b) ∧ ∀ t ∈ readAll G ps ts, t.Whole
  | [], ts => by simp [SuppliedAll, emitPatternGuards, readAll]
  | p :: ps, [] => by simp [SuppliedAll, emitPatternGuards]
  | p :: ps, t :: ts => by
    have hoperand := suppliedOperand_iff p t
    have hrest := suppliedAll_iff ps ts
    rw [SuppliedAll, emitPatternGuards, readAll, hoperand, hrest]
    cases hguard : guardOperand G Place.view p t with
    | none => simp
    | some b =>
      cases b with
      | false => simp
      | true =>
        simp only [Option.some.injEq, exists_eq', true_and, forall_const, if_true, Option.bind_some, List.mem_append,
          or_imp, forall_and]
        tauto

theorem suppliedOperand_iff : ∀ (p : TreePattern) (t : Place ν), SuppliedOperand G p t ↔
    (∃ b, guardOperand G Place.view p t = some b) ∧ ∀ t' ∈ readOperand G p t, t'.Whole
  | .mk name ps, t => by
    have hall := suppliedAll_iff ps (Place.children t)
    have hop : (Place.view (ν := ν)).op t = t.2.op := rfl
    have hchildren : (Place.view (ν := ν)).children t = Place.children t := rfl
    rw [SuppliedOperand, guardOperand, readOperand, hall, hop, hchildren]
    cases ps with
    | nil => simp [readAll, emitPatternGuards]
    | cons p ps =>
      by_cases hname : t.2.op = name
      · simp only [List.isEmpty_cons, Bool.false_eq_true, if_false, hname, if_true, forall_const, List.mem_cons,
          forall_eq_or_imp]
        tauto
      · simp [hname]

end

/-- The places of half-built states. -/
theorem places_grown {us : List (Node ν)} (h : GrownAll us ss) :
    List.Forall₂ (fun (t : Place ν) s => t.2 = s ∧ Grown t.1 t.2) (us.zip ss) ss := by
  induction us generalizing ss with
  | nil =>
    cases h
    exact .nil
  | cons u us ih =>
    cases h with
    | stop => exact .nil
    | cons hu hus => exact .cons ⟨rfl, hu⟩ (ih hus)

/-- A guard reads the same of the places as of the states. -/
theorem alike_places : Alike (Place.view (ν := ν)) State.view fun t s => t.2 = s ∧ Grown t.1 t.2 := by
  rintro ⟨u, s⟩ _ ⟨rfl, hgrown⟩
  refine ⟨rfl, fun _ => rfl, ?_⟩
  dsimp only at hgrown
  cases hgrown with
  | mk _ hchildren => exact places_grown hchildren

theorem patternGuard_places (hs : GrownAll u.children ss) (p : TreePattern) :
    patternGuard G Place.view p (atCall u ss) = patternGuard G State.view p (.mk u.op .init ss) :=
  patternGuard_congr alike_places p (places_grown hs)

theorem guarded_iff {p : TreePattern} (hlen : ss.length = u.children.length) :
    (∃ b, patternGuard G Place.view p (atCall u ss) = some b) ↔ (p.children.length ≤ ss.length →
      ∃ b, emitPatternGuards G Place.view p.children (atCall u ss).children = some b) := by
  have hplaces : ((Place.view (ν := ν)).children (atCall u ss)).length = ss.length := by
    change (u.children.zip ss).length = ss.length
    rw [List.length_zip, hlen, min_self]
  unfold patternGuard
  rw [hplaces]
  by_cases hleaf : p.isLeaf = true
  · have hnil : p.children = [] := List.isEmpty_iff.mp hleaf
    rw [if_pos hleaf, hnil]
    constructor
    · exact fun _ _ => ⟨true, rfl⟩
    · intro _
      split
      · exact ⟨_, rfl⟩
      · exact ⟨_, rfl⟩
  · rw [if_neg hleaf]
    by_cases hfew : p.children.length ≤ ss.length
    · rw [if_pos hfew]
      exact ⟨fun h _ => h, fun h => h hfew⟩
    · rw [if_neg hfew]
      exact ⟨fun _ h => absurd h hfew, fun _ => ⟨_, rfl⟩⟩

/-- **A call is supplied** just when no guard reads a child that is not there and all that is read has been labelled. -/
theorem supplied_iff (hs : GrownAll u.children ss) (hlen : ss.length = u.children.length) :
    Supplied G eval u ss ↔
      Reads G u ss ∧ ∀ r ∈ rulesByTerm G u.op, ∀ t ∈ readBy G eval r u ss, t.Whole := by
  have hrule : ∀ r : Rule, ((r.pattern.children.length ≤ ss.length →
        SuppliedAll G r.pattern.children (atCall u ss).children) ∧
      (patternGuard G Place.view r.pattern (atCall u ss) = some true → r.holds eval u = true →
        ∀ t ∈ (atCall u ss).children.drop r.pattern.children.length, t.Whole)) ↔
      ((∃ b, patternGuard G State.view r.pattern (.mk u.op .init ss) = some b) ∧
        ∀ t ∈ readBy G eval r u ss, t.Whole) := fun r => by
    rw [← patternGuard_places hs, guarded_iff hlen, suppliedAll_iff, readBy]
    simp only [List.mem_append, List.mem_ite_nil_right, or_imp, forall_and]
    constructor
    · rintro ⟨⟨hguard, hread⟩, hextra⟩
      exact ⟨hguard, fun t ht => hread ht.1 t ht.2, fun t ht => hextra ht.1.1 ht.1.2 t ht.2⟩
    · rintro ⟨hguard, hread, hextra⟩
      exact ⟨⟨hguard, fun hfew t ht => hread t ⟨hfew, ht⟩⟩, fun htrue hholds t ht => hextra t ⟨⟨htrue, hholds⟩, ht⟩⟩
  constructor
  · intro h
    exact ⟨fun r hr => ((hrule r).mp (h r hr)).1, fun r hr => ((hrule r).mp (h r hr)).2⟩
  · rintro ⟨hreads, hwhole⟩ r hr
    exact (hrule r).mpr ⟨hreads r hr, hwhole r hr⟩

end Supplied

/-- `s: A(B(r)) = 1 { emit(); }  r: D = 1;  t: B(r) = 1;` -/
def nested : Spec where
  terminals := ["A", "B", "D"]
  start := "s"
  entries := []
  rules :=
    [⟨"s", .mk "A" [.mk "B" [.mk "r" []]], 1, "", "emit();", 1⟩,
     ⟨"r", .mk "D" [], 1, "", "", 2⟩,
     ⟨"t", .mk "B" [.mk "r" []], 1, "", "", 3⟩]
  numbered := rfl

/-- `A(B(D))`, and after it another operation on the same `B`. -/
def sharing : Graph (Fin 4) where
  node
    | 0 => .mk "A" 0 [.mk "B" 2 [.mk "D" 3 []]]
    | 1 => .mk "A" 1 [.mk "B" 2 [.mk "D" 3 []]]
    | 2 => .mk "B" 2 [.mk "D" 3 []]
    | 3 => .mk "D" 3 []
  succs
    | 0 => [some 1]
    | _ => []
  id_node
    | 0 => rfl
    | 1 => rfl
    | 2 => rfl
    | 3 => rfl
  child
    | 0, _, hu => by rw [List.mem_singleton.mp hu]; rfl
    | 1, _, hu => by rw [List.mem_singleton.mp hu]; rfl
    | 2, _, hu => by rw [List.mem_singleton.mp hu]; rfl
    | 3, _, hu => by cases hu

/-- `burg_ctx_init`. -/
def fresh : Context (Fin 4) := { error := none, cache := fun _ => none, asked := 0, log := [] }

theorem nested_small : Small nested := ⟨by decide, by decide⟩

/-- One nonterminal below each rule. -/
theorem sharing_fits (n : Fin 4) : Fits nested (sharing.node n) := by
  have hone : ∀ r ∈ nested.rules, r.cost + maxCost * 1 < 2 ^ 31 := by decide
  have hleaves : ∀ n : Fin 4, ∀ r ∈ rulesByTerm nested (sharing.node n).op,
      ((visited nested Node.children r.pattern (sharing.node n)).getD []).length ≤ 1 := by decide +kernel
  intro r hr vs hvs
  have hlen := hleaves n r hr
  rw [hvs, Option.getD_some] at hlen
  have hmul := Nat.mul_le_mul_left maxCost hlen
  have := hone r (mem_rulesByTerm.mp hr).1
  omega

/-- Once the order of `sharing` has been found: six requests. -/
def ordered : Context (Fin 4) := { fresh with asked := 6 }

theorem sharing_order (fuel : Nat) : rpoDfs (fun k => k == 12) sharing (fuel + 20) 0 fresh =
    some (some [0, 1], ordered) := rfl

end Bbq.Burg
