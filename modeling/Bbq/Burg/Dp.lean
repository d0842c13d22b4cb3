import Bbq.Lib.Relax
import Bbq.Burg.Walk

/-!
# The dynamic programme at one node

The arrays of a state as what `Bbq.Lib.Relax` keeps: nonterminals are the nodes, chain rules whose guard
holds the edges, and the rules over the node's operator whose guard holds make the offers.

* `toTable` is the arrays for what is kept.
* **`dp_settled`**: when no guard reads a child that is not there and costs are small enough for an
  `int`, the programme ends, and the arrays hold what the offers settle to.

`fuel` bounds the depth of the closures. There are never more of them open than there are chain rules.
-/

namespace Bbq.Burg

open Bbq.Lib.Relax

variable {G : Spec} {guard : Rule → Bool}

theorem short_of_le {n : Nat} (h : n ≤ maxCost) : short n = n := by
  unfold maxCost at h
  unfold short
  exact Int.bmod_eq_of_le (by omega) (by omega)

theorem int32_of_lt {n : Nat} (h : n < 2 ^ 31) : int32 n = n := by
  unfold int32
  exact Int.bmod_eq_of_le (by omega) (by omega)

/-- The chain rules from `nt` that may be used. -/
def edgesFrom (G : Spec) (guard : Rule → Bool) (nt : String) : List (Edge String Rule) :=
  ((chainsFrom G nt).filter guard).map fun r => ⟨nt, r.nonterm, r.cost, r⟩

theorem mem_edgesFrom {nt : String} {e : Edge String Rule} : e ∈ edgesFrom G guard nt ↔
    ∃ r ∈ G.rules, G.isNonterm r.pattern = true ∧ r.pattern.name = nt ∧ guard r = true ∧ e = ⟨nt, r.nonterm, r.cost, r⟩ := by
  simp only [edgesFrom, chainsFrom, Spec.chainRules, List.mem_map, List.mem_filter, beq_iff_eq]
  constructor
  · rintro ⟨r, ⟨⟨⟨hr, hn⟩, hname⟩, hguard⟩, rfl⟩
    exact ⟨r, hr, hn, hname, hguard, rfl⟩
  · rintro ⟨r, hr, hn, hname, hguard, rfl⟩
    exact ⟨r, ⟨⟨⟨hr, hn⟩, hname⟩, hguard⟩, rfl⟩

/-- The rule number for what gave a nonterminal its cost. -/
def number : Mark String Rule → Nat
  | .unset => 0
  | .direct r => r.rule_number
  | .along e => e.label.rule_number

def toTable (B : Best String Rule) : Table :=
  { cost := fun nt => B.cost nt, rule := fun nt => number (B.mark nt) }

theorem toTable_empty : toTable (Best.empty maxCost) = Table.init := rfl

theorem toTable_put {B : Best String Rule} {nt : String} {c : Nat} {m : Mark String Rule} (hc : c ≤ maxCost)
    (hm : number m ≤ maxCost) : (toTable B).put nt c (number m) = toTable (B.put nt c m) := by
  unfold Table.put toTable Best.put
  congr 1
  · funext x
    rw [short_of_le hc]
    by_cases hx : x = nt
    · subst hx
      simp only [Function.update_self]
    · simp only [Function.update_of_ne hx]
  · funext x
    rw [short_of_le hm]
    by_cases hx : x = nt
    · subst hx
      simp only [Function.update_self]
    · simp only [Function.update_of_ne hx]

/-- A grammar whose rule numbers fit a `short` and whose costs an `int` can add to a `short`. -/
structure Small (G : Spec) : Prop where
  rules : G.rules.length ≤ maxCost
  costs : ∀ r ∈ G.rules, r.cost < 2 ^ 30

/-! ## Closures -/

/-- A closure none of whose guards holds changes nothing. -/
theorem closure_guarded {fuel : Nat} {nt : String} {c : Int} {p : Table}
    (h : (edgesFrom G guard nt).isEmpty = true) : closure G guard (fuel + 1) nt c p = some p := by
  have hfalse : ∀ r ∈ chainsFrom G nt, guard r = false := by
    intro r hr
    by_contra hne
    have hmem : r ∈ (chainsFrom G nt).filter guard := List.mem_filter.mpr ⟨hr, by simpa using hne⟩
    rw [List.isEmpty_iff, edgesFrom, List.map_eq_nil_iff] at h
    rw [h] at hmem
    cases hmem
  rw [closure]
  generalize chainsFrom G nt = rs at hfalse
  induction rs with
  | nil => rfl
  | cons r rs ih =>
    have hr : guard r = false := hfalse r List.mem_cons_self
    rw [List.foldlM_cons]
    simp only [hr, Bool.false_eq_true, false_and, if_false, Option.bind_eq_bind, Option.bind_some]
    exact ih fun r hr => hfalse r (List.mem_cons_of_mem _ hr)

section Bridge

variable (hG : Small G)

include hG

/-- A closure, called or left out where there is no chain rule, does what following does. -/
theorem closure_step {fuel : Nat} {r : Rule} (hr : r ∈ G.rules) {d : Nat} {B B' : Best String Rule}
    {m : Mark String Rule} (hm : number m = r.rule_number) (hd : d ≤ maxCost)
    (h : (if (edgesFrom G guard r.nonterm).isEmpty then some (B.put r.nonterm d m)
      else follow (edgesFrom G guard) fuel r.nonterm d (B.put r.nonterm d m)) = some B')
    (ih : ∀ x c (B B' : Best String Rule), follow (edgesFrom G guard) fuel x c B = some B' → c ≤ maxCost →
      (∀ z, B.cost z ≤ maxCost) → closure G guard (fuel + 1) x c (toTable B) = some (toTable B') ∧
        ∀ z, B'.cost z ≤ maxCost)
    (hB : ∀ z, B.cost z ≤ maxCost) :
    (let p' := (toTable B).put r.nonterm d r.rule_number
      if (chainsFrom G r.nonterm).isEmpty then some p' else closure G guard (fuel + 1) r.nonterm d p') =
        some (toTable B') ∧ ∀ z, B'.cost z ≤ maxCost := by
  have hnumber : number m ≤ maxCost := by
    rw [hm]
    exact le_trans (Spec.rule_number_mem hr).2 hG.rules
  have hput : ∀ z, (B.put r.nonterm d m).cost z ≤ maxCost := fun z => by
    by_cases hz : z = r.nonterm
    · rw [hz, Best.cost_put_self]
      exact hd
    · rw [B.cost_put_of_ne d m hz]
      exact hB z
  rw [← hm, toTable_put hd hnumber]
  dsimp only
  by_cases hempty : (edgesFrom G guard r.nonterm).isEmpty = true
  · rw [if_pos hempty] at h
    obtain rfl := Option.some.inj h
    rw [closure_guarded hempty, ite_self]
    exact ⟨rfl, hput⟩
  · rw [if_neg hempty] at h
    have hchains : ¬ (chainsFrom G r.nonterm).isEmpty = true := fun hc => by
      rw [List.isEmpty_iff] at hc
      rw [edgesFrom, hc] at hempty
      exact hempty rfl
    rw [if_neg hchains]
    exact ih r.nonterm d _ B' h hd hput

theorem closure_of_follow (fuel : Nat) : ∀ x c (B B' : Best String Rule),
    follow (edgesFrom G guard) fuel x c B = some B' → c ≤ maxCost → (∀ z, B.cost z ≤ maxCost) →
      closure G guard (fuel + 1) x c (toTable B) = some (toTable B') ∧ ∀ z, B'.cost z ≤ maxCost := by
  induction fuel with
  | zero => intro x c B B' h; cases h
  | succ fuel ih =>
    intro x c B B' h hc hB
    rw [follow, edgesFrom] at h
    rw [closure]
    have hrules : ∀ r ∈ chainsFrom G x, r ∈ G.rules := fun r hr =>
      (List.mem_filter.mp (List.mem_filter.mp hr).1).1
    generalize chainsFrom G x = rs at h hrules
    induction rs generalizing B with
    | nil =>
      obtain rfl := Option.some.inj h
      exact ⟨rfl, hB⟩
    | cons r rs ihr =>
      have hr : r ∈ G.rules := hrules r List.mem_cons_self
      have hrest : ∀ r ∈ rs, r ∈ G.rules := fun r hr => hrules r (List.mem_cons_of_mem _ hr)
      rw [List.foldlM_cons]
      cases hguard : guard r with
      | false =>
        rw [List.filter_cons_of_neg (by simp [hguard])] at h
        simp only [Bool.false_eq_true, false_and, if_false, Option.bind_eq_bind, Option.bind_some]
        exact ihr B hB h hrest
      | true =>
        rw [List.filter_cons_of_pos hguard, List.map_cons, List.foldlM_cons] at h
        obtain ⟨B₁, hone, h⟩ := Option.bind_eq_some_iff.mp h
        have hsum : int32 ((c : Int) + r.cost) = ((c + r.cost : Nat) : Int) := by
          have hcost := hG.costs r hr
          unfold maxCost at hc
          rw [← Int.natCast_add]
          exact int32_of_lt (by omega)
        have hstep : (if (true = true ∧ int32 ((c : Int) + r.cost) < (toTable B).cost r.nonterm) then
            (let p' := (toTable B).put r.nonterm (int32 ((c : Int) + r.cost)) r.rule_number
              if (chainsFrom G r.nonterm).isEmpty then some p'
              else closure G guard (fuel + 1) r.nonterm (int32 ((c : Int) + r.cost)) p')
            else some (toTable B)) = some (toTable B₁) ∧ ∀ z, B₁.cost z ≤ maxCost := by
          unfold tryEdge at hone
          dsimp only at hone
          by_cases hless : c + r.cost < B.cost r.nonterm
          · rw [if_pos hless] at hone
            have hd : c + r.cost ≤ maxCost := le_trans (le_of_lt hless) (hB _)
            rw [hsum, if_pos ⟨rfl, by simpa only [toTable, Int.ofNat_lt] using hless⟩]
            exact closure_step hG hr rfl hd hone ih hB
          · rw [if_neg hless] at hone
            obtain rfl := Option.some.inj hone
            rw [hsum, if_neg fun hc => hless (by simpa only [toTable, Int.ofNat_lt] using hc.2)]
            exact ⟨rfl, hB⟩
        rw [hstep.1]
        exact ihr B₁ hstep.2 h hrest

end Bridge

/-! ## The rules over the operator -/

/-- What is kept costs between none and the most. -/
def Table.Ranged (p : Table) : Prop := ∀ nt, ∃ c : Nat, p.cost nt = c ∧ c ≤ maxCost

/-- The sum of the costs of leaves. -/
def leafCost (vs : List (State × String)) : Nat := (vs.map fun v => (v.1.table.cost v.2).toNat).sum

/-- What the rule costs at the state. -/
def offered (G : Spec) (s : State) (r : Rule) : Nat := r.cost + leafCost ((visited G State.children r.pattern s).getD [])

/-- What the rule visits is in range, and its sum fits an `int`. -/
structure Fitting (G : Spec) (s : State) (r : Rule) : Prop where
  ranged : ∀ vs, visited G State.children r.pattern s = some vs → ∀ v ∈ vs, v.1.table.Ranged
  sum : ∀ vs, visited G State.children r.pattern s = some vs → r.cost + maxCost * vs.length < 2 ^ 31

theorem leafCost_append (vs ws : List (State × String)) : leafCost (vs ++ ws) = leafCost vs + leafCost ws := by
  simp only [leafCost, List.map_append, List.sum_append]

theorem leafCost_le {vs : List (State × String)} (h : ∀ v ∈ vs, v.1.table.Ranged) :
    leafCost vs ≤ maxCost * vs.length := by
  induction vs with
  | nil => exact Nat.zero_le _
  | cons v vs ih =>
    obtain ⟨c, hc, hle⟩ := h v List.mem_cons_self v.2
    have := ih fun w hw => h w (List.mem_cons_of_mem _ hw)
    have hv : leafCost (v :: vs) = c + leafCost vs := by
      simp only [leafCost, List.map_cons, List.sum_cons, hc, Int.toNat_natCast]
    rw [hv, List.length_cons, Nat.mul_succ]
    omega

theorem sum_cost {vs : List (State × String)} (h : ∀ v ∈ vs, v.1.table.Ranged) :
    (vs.map fun v => v.1.table.cost v.2).sum = (leafCost vs : Int) := by
  induction vs with
  | nil => rfl
  | cons v vs ih =>
    obtain ⟨c, hc, -⟩ := h v List.mem_cons_self v.2
    have htail := ih fun w hw => h w (List.mem_cons_of_mem _ hw)
    simp only [leafCost, List.map_cons, List.sum_cons, hc, Int.toNat_natCast, Int.natCast_add] at htail ⊢
    rw [htail]

/-- Adding costs up in an `int` that is large enough. -/
theorem foldl_int32 {vs : List (State × String)} (h : ∀ v ∈ vs, v.1.table.Ranged) (c : Nat)
    (hsum : c + leafCost vs < 2 ^ 31) :
    vs.foldl (fun c v => int32 (c + v.1.table.cost v.2)) (c : Int) = ((c + leafCost vs : Nat) : Int) := by
  induction vs generalizing c with
  | nil => rfl
  | cons v vs ih =>
    obtain ⟨d, hd, -⟩ := h v List.mem_cons_self v.2
    have hv : leafCost (v :: vs) = d + leafCost vs := by
      simp only [leafCost, List.map_cons, List.sum_cons, hd, Int.toNat_natCast]
    rw [hv] at hsum
    rw [List.foldl_cons, hd, ← Int.natCast_add, int32_of_lt (by omega), ih (fun w hw => h w (List.mem_cons_of_mem _ hw))
      (c + d) (by omega), hv, Nat.add_assoc]

theorem ruleCost_eq {s : State} {r : Rule} (h : Fitting G s r) {vs : List (State × String)}
    (hvs : visited G State.children r.pattern s = some vs) : ruleCost G r s = some (offered G s r : Int) := by
  obtain ⟨leaves, hleaves, rfl⟩ := Option.map_eq_some_iff.mp hvs
  have hranged := h.ranged _ hvs
  have hsum := h.sum _ hvs
  have hbound := leafCost_le hranged
  have hfirst : ∀ v ∈ leaves, v.1.table.Ranged := fun v hv => hranged v (List.mem_append_left _ hv)
  have hlast : ∀ v ∈ extras G State.children r.pattern s, v.1.table.Ranged := fun v hv =>
    hranged v (List.mem_append_right _ hv)
  rw [leafCost_append] at hbound
  have hcost : patternCost G r.pattern s = some (leafCost leaves : Int) := by
    unfold patternCost
    rw [hleaves, Option.map_some]
    exact congrArg some (sum_cost hfirst)
  unfold ruleCost
  rw [hcost, Option.map_some, ← Int.natCast_add, int32_of_lt (by omega),
    foldl_int32 hlast _ (by omega), offered, hvs, Option.getD_some, leafCost_append]
  congr 2
  omega

/-- The offers of the rules whose guard holds. -/
def offersOf (G : Spec) (guard : Rule → Bool) (s : State) (rs : List Rule) : List (Offer String Rule) :=
  (rs.filter fun r => patternGuard G State.view r.pattern s == some true && guard r).map fun r =>
    (r.nonterm, offered G s r, r)

theorem mem_offersOf {s : State} {rs : List Rule} {o : Offer String Rule} : o ∈ offersOf G guard s rs ↔
    ∃ r ∈ rs, patternGuard G State.view r.pattern s = some true ∧ guard r = true ∧ o = (r.nonterm, offered G s r, r) := by
  simp only [offersOf, List.mem_map, List.mem_filter, Bool.and_eq_true, beq_iff_eq]
  constructor
  · rintro ⟨r, ⟨hr, hfits, hguard⟩, rfl⟩
    exact ⟨r, hr, hfits, hguard, rfl⟩
  · rintro ⟨r, hr, hfits, hguard, rfl⟩
    exact ⟨r, ⟨hr, hfits, hguard⟩, rfl⟩

theorem dp_of_offers (hG : Small G) {fuel : Nat} {s : State} (rs : List Rule) (hrs : ∀ r ∈ rs, r ∈ G.rules)
    (hfit : ∀ r ∈ rs, Fitting G s r)
    (hreads : ∀ r ∈ rs, ∃ b, patternGuard G State.view r.pattern s = some b) (B B' : Best String Rule)
    (hB : ∀ z, B.cost z ≤ maxCost)
    (h : offers (edgesFrom G guard) fuel (offersOf G guard s rs) B = some B') :
    rs.foldlM (tryRule G guard (fuel + 1) s) (toTable B) = some (toTable B') := by
  induction rs generalizing B with
  | nil =>
    obtain rfl := Option.some.inj h
    rfl
  | cons r rs ih =>
    obtain ⟨b, hb⟩ := hreads r List.mem_cons_self
    have hrest := ih (fun r hr => hrs r (List.mem_cons_of_mem _ hr)) (fun r hr => hfit r (List.mem_cons_of_mem _ hr))
      fun r hr => hreads r (List.mem_cons_of_mem _ hr)
    rw [List.foldlM_cons]
    by_cases hfits : b = true ∧ guard r = true
    · obtain ⟨rfl, hguard⟩ := hfits
      obtain ⟨vs, hvs⟩ := visited_of_guard hb
      have hcost := ruleCost_eq (hfit r List.mem_cons_self) hvs
      have hoffers : offersOf G guard s (r :: rs) = (r.nonterm, offered G s r, r) :: offersOf G guard s rs := by
        simp only [offersOf, List.filter_cons, hb, hguard, beq_self_eq_true, Bool.and_self, if_true, List.map_cons]
      rw [hoffers, offers, List.foldlM_cons] at h
      obtain ⟨B₁, hone, h⟩ := Option.bind_eq_some_iff.mp h
      have hstep : tryRule G guard (fuel + 1) s (toTable B) r = some (toTable B₁) ∧ ∀ z, B₁.cost z ≤ maxCost := by
        unfold tryRule
        rw [hb, Option.bind_some, if_pos ⟨rfl, hguard⟩, hcost, Option.bind_some]
        unfold offer at hone
        dsimp only at hone
        by_cases hless : offered G s r < B.cost r.nonterm
        · rw [if_pos hless] at hone
          rw [if_pos (by simpa only [toTable, Int.ofNat_lt] using hless)]
          have hd : offered G s r ≤ maxCost := le_trans (le_of_lt hless) (hB _)
          exact closure_step hG (hrs r List.mem_cons_self) rfl hd hone (fun x c B B' => closure_of_follow hG fuel x c B B') hB
        · rw [if_neg hless] at hone
          obtain rfl := Option.some.inj hone
          rw [if_neg fun hc => hless (by simpa only [toTable, Int.ofNat_lt] using hc)]
          exact ⟨rfl, hB⟩
      rw [hstep.1]
      exact hrest B₁ hstep.2 h
    · have hoffers : offersOf G guard s (r :: rs) = offersOf G guard s rs := by
        have hno : (patternGuard G State.view r.pattern s == some true && guard r) = false := by
          rw [hb]
          by_contra hyes
          rw [Bool.not_eq_false, Bool.and_eq_true, beq_iff_eq, Option.some.injEq] at hyes
          exact hfits hyes
        simp only [offersOf, List.filter_cons, hno, Bool.false_eq_true, if_false]
      have hstep : tryRule G guard (fuel + 1) s (toTable B) r = some (toTable B) := by
        unfold tryRule
        rw [hb, Option.bind_some, if_neg hfits]
      rw [hoffers] at h
      rw [hstep]
      exact hrest B hB h

/-- A programme that came to an end asked every guard, and none read a child that is not there. -/
theorem reads_of_dp {fuel : Nat} {s : State} {rs : List Rule} {p p' : Table}
    (h : rs.foldlM (tryRule G guard fuel s) p = some p') :
    ∀ r ∈ rs, ∃ b, patternGuard G State.view r.pattern s = some b := by
  induction rs generalizing p with
  | nil => intro r hr; cases hr
  | cons r rs ih =>
    rw [List.foldlM_cons] at h
    obtain ⟨p₁, hone, h⟩ := Option.bind_eq_some_iff.mp h
    obtain ⟨b, hb, -⟩ := Option.bind_eq_some_iff.mp hone
    rintro q hq
    rcases List.mem_cons.mp hq with rfl | hq
    · exact ⟨b, hb⟩
    · exact ih h q hq

/-- **The programme at one node** comes to what the offers settle to. -/
theorem dp_settled (hG : Small G) {s : State} {op : String} (hfit : ∀ r ∈ rulesByTerm G op, Fitting G s r)
    (hreads : ∀ r ∈ rulesByTerm G op, ∃ b, patternGuard G State.view r.pattern s = some b) {fuel : Nat}
    (hfuel : G.rules.length < fuel) :
    ∃ B, (rulesByTerm G op).foldlM (tryRule G guard fuel s) .init = some (toTable B) ∧
      Settled (edgesFrom G guard) maxCost (offersOf G guard s (rulesByTerm G op)) B := by
  obtain ⟨fuel, rfl⟩ : ∃ k, fuel = k + 1 := ⟨fuel - 1, by omega⟩
  have hnodes : ∀ x, edgesFrom G guard x ≠ [] → x ∈ G.chainRules.map fun r => r.pattern.name := by
    intro x hx
    obtain ⟨e, he⟩ := List.exists_mem_of_ne_nil _ hx
    obtain ⟨r, hr, hn, rfl, -, -⟩ := mem_edgesFrom.mp he
    exact List.mem_map.mpr ⟨r, List.mem_filter.mpr ⟨hr, hn⟩, rfl⟩
  have hsource : ∀ x, ∀ e ∈ edgesFrom G guard x, e.source = x := by
    intro x e he
    obtain ⟨r, -, -, -, -, rfl⟩ := mem_edgesFrom.mp he
    rfl
  have hlen : (G.chainRules.map fun r => r.pattern.name).length ≤ fuel := by
    rw [List.length_map]
    exact le_trans (List.length_filter_le _ _) (by omega)
  obtain ⟨B, hrun, hsettled⟩ := offers_settled maxCost hnodes hsource hlen
    (offersOf G guard s (rulesByTerm G op))
  refine ⟨B, ?_, hsettled⟩
  rw [← toTable_empty]
  exact dp_of_offers hG _ (fun r hr => (List.mem_filter.mp hr).1) hfit hreads _ B (fun _ => le_refl _) hrun

/-! ## More fuel -/

theorem foldlM_mono {α β : Type} {f g : β → α → Option β} {as : List α} (h : ∀ a ∈ as, ∀ b b', f b a = some b' → g b a = some b')
    {b b' : β} (hf : as.foldlM f b = some b') : as.foldlM g b = some b' := by
  induction as generalizing b with
  | nil => exact hf
  | cons a as ih =>
    rw [List.foldlM_cons] at hf ⊢
    obtain ⟨b₁, hone, hrest⟩ := Option.bind_eq_some_iff.mp hf
    rw [h a List.mem_cons_self b b₁ hone]
    exact ih (fun a ha => h a (List.mem_cons_of_mem _ ha)) hrest

theorem closure_mono {fuel : Nat} : ∀ {fuel' : Nat}, fuel ≤ fuel' → ∀ {nt : String} {c : Int} {p p' : Table},
    closure G guard fuel nt c p = some p' → closure G guard fuel' nt c p = some p' := by
  induction fuel with
  | zero => intro _ _ _ _ _ _ h; cases h
  | succ fuel ih =>
    intro fuel' hle nt c p p' h
    obtain ⟨fuel', rfl⟩ : ∃ k, fuel' = k + 1 := ⟨fuel' - 1, by omega⟩
    rw [closure] at h ⊢
    refine foldlM_mono (fun r _ p p' hstep => ?_) h
    split at hstep
    · next hless =>
      rw [if_pos hless]
      dsimp only at hstep ⊢
      split at hstep
      · next hempty => rwa [if_pos hempty]
      · next hempty =>
        rw [if_neg hempty]
        exact ih (by omega) hstep
    · next hless => rwa [if_neg hless]

/-- **A programme that has come to an end** does so on more fuel, with the same arrays. -/
theorem dp_mono {fuel fuel' : Nat} (hle : fuel ≤ fuel') {s : State} {rs : List Rule} {p p' : Table}
    (h : rs.foldlM (tryRule G guard fuel s) p = some p') : rs.foldlM (tryRule G guard fuel' s) p = some p' := by
  refine foldlM_mono (fun r _ p p' hstep => ?_) h
  unfold tryRule at hstep ⊢
  obtain ⟨fits, hfits, hstep⟩ := Option.bind_eq_some_iff.mp hstep
  rw [hfits, Option.bind_some]
  split at hstep
  · next hguard =>
    rw [if_pos hguard]
    obtain ⟨c, hc, hstep⟩ := Option.bind_eq_some_iff.mp hstep
    rw [hc, Option.bind_some]
    split at hstep
    · next hless =>
      rw [if_pos hless]
      dsimp only at hstep ⊢
      split at hstep
      · next hempty => rwa [if_pos hempty]
      · next hempty =>
        rw [if_neg hempty]
        exact closure_mono hle hstep
    · next hless => rwa [if_neg hless]
  · next hguard => rwa [if_neg hguard]

end Bbq.Burg
