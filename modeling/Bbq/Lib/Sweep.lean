import Mathlib.Algebra.Ring.Int.Defs
import Mathlib.Algebra.Ring.Nat
import Mathlib.Data.List.Basic
import Mathlib.Order.WellFounded
import Mathlib.Order.RelClasses
import Bbq.Lib.Settle

/-!
# Cheapest derivations by sweeps

A rule derives its target from sources, at its weight and the costs of the sources. `Costs` keeps for each
node the least cost found so far and the rule that gave it, and a sweep tries the rules one after the other
(`relax`), each on what the ones before it left.

* `Backed`: every cost kept is accounted for by its rule. A node whose cost has just fallen is last in rank,
  so that rules which still give exactly what they gave do not go round in a circle, even at weight zero.
* **`solved_of_fixed`**: where no rule improves anything, the rule kept for a node gives exactly its cost,
  and the rules kept are well founded (`Solved`).
* `relaxed` is the sweeps without an end, in unbounded arithmetic. `Bounded` says that no sum in them reaches
  a given bound.
* `Sweeping`: a loop that sweeps as long as that improves something, and fails where a sum reaches the bound.
  **`sweeps_settle`**: within the bound it ends, solved. **`bounded_of_ended`**: it ends only within the bound.

Nothing here is about a particular graph.
-/

namespace Bbq.Lib.Sweep

variable {ν : Type}

/-- `target` is derived from `sources`. -/
structure Rule (ν : Type) where
  target : ν
  weight : Nat
  sources : List ν
  deriving DecidableEq

/-- The least costs so far, and the names of the rules that gave them. -/
structure Costs (ν : Type) where
  cost : ν → Option Nat
  best : ν → Option Nat

namespace Costs

/-- Nothing has a cost. -/
def empty : Costs ν := { cost := fun _ => none, best := fun _ => none }

def put [DecidableEq ν] (C : Costs ν) (x : ν) (c i : Nat) : Costs ν :=
  { cost := Function.update C.cost x (some c), best := Function.update C.best x (some i) }

section Put

variable [DecidableEq ν] (C : Costs ν) {x y : ν} (c i : Nat)

@[simp] theorem cost_put_self : (C.put x c i).cost x = some c := Function.update_self ..

@[simp] theorem best_put_self : (C.put x c i).best x = some i := Function.update_self ..

theorem cost_put_of_ne (h : y ≠ x) : (C.put x c i).cost y = C.cost y := Function.update_of_ne h ..

theorem best_put_of_ne (h : y ≠ x) : (C.put x c i).best y = C.best y := Function.update_of_ne h ..

end Put

/-- `sum` and the costs of some nodes, if they all have one. -/
def total (C : Costs ν) : Nat → List ν → Option Nat
  | sum, [] => some sum
  | sum, x :: xs => (C.cost x).bind fun c => C.total (sum + c) xs

/-- The sums formed on the way to `total`. -/
def sums (C : Costs ν) : Nat → List ν → List Nat
  | _, [] => []
  | sum, x :: xs =>
    match C.cost x with
    | none => []
    | some c => (sum + c) :: C.sums (sum + c) xs

/-- `c` is less than what is kept for `x`. -/
def Improves (C : Costs ν) (x : ν) (c : Nat) : Prop := ∀ old ∈ C.cost x, c < old

end Costs

open Costs

/-! ## Totals -/

section Totals

variable {C : Costs ν}

theorem total_add (C : Costs ν) (a b : Nat) (xs : List ν) :
    C.total (a + b) xs = (C.total a xs).map (· + b) := by
  induction xs generalizing a with
  | nil => rfl
  | cons x xs ih =>
    unfold total
    cases C.cost x with
    | none => rfl
    | some c =>
      rw [Option.bind_some, Option.bind_some, ← ih (a + c)]
      congr 1
      omega

theorem le_total {sum c : Nat} {xs : List ν} (h : C.total sum xs = some c) : sum ≤ c := by
  rw [← Nat.zero_add sum, total_add, Option.map_eq_some_iff] at h
  obtain ⟨d, -, rfl⟩ := h
  omega

/-- A source costs no more than the total. -/
theorem cost_of_mem {sum c : Nat} {xs : List ν} (h : C.total sum xs = some c) {x : ν} (hx : x ∈ xs) :
    ∃ v, C.cost x = some v ∧ sum + v ≤ c := by
  induction xs generalizing sum with
  | nil => cases hx
  | cons y xs ih =>
    unfold total at h
    rw [Option.bind_eq_some_iff] at h
    obtain ⟨d, hd, h⟩ := h
    rcases List.mem_cons.mp hx with rfl | hx
    · exact ⟨d, hd, le_total h⟩
    · obtain ⟨v, hv, hle⟩ := ih h hx
      exact ⟨v, hv, by omega⟩

/-- Costs that are as good or better. -/
def Lower (C C' : Costs ν) : Prop := ∀ x, ∀ c ∈ C.cost x, ∃ c' ∈ C'.cost x, c' ≤ c

theorem total_lower {C' : Costs ν} (h : Lower C C') {sum sum' c : Nat} {xs : List ν} (hsum : sum' ≤ sum)
    (hc : C.total sum xs = some c) :
    ∃ c', C'.total sum' xs = some c' ∧ c' + sum ≤ c + sum' ∧
      ∀ x ∈ xs, C'.cost x ≠ C.cost x → c' + sum < c + sum' := by
  induction xs generalizing sum sum' with
  | nil =>
    obtain rfl : sum = c := Option.some.inj hc
    exact ⟨sum', rfl, by omega, fun x hx => by cases hx⟩
  | cons x xs ih =>
    unfold total at hc
    rw [Option.bind_eq_some_iff] at hc
    obtain ⟨v, hv, hc⟩ := hc
    obtain ⟨v', hv', hle⟩ := h x v hv
    obtain ⟨c', hc', hless, hstrict⟩ := @ih (sum + v) (sum' + v') (by omega) hc
    refine ⟨c', ?_, by omega, fun y hy hne => ?_⟩
    · unfold total
      rw [hv', Option.bind_some, hc']
    · rcases List.mem_cons.mp hy with rfl | hy
      · have hvne : v' ≠ v := by
          rintro rfl
          exact hne (hv'.trans hv.symm)
        omega
      · have := hstrict y hy hne
        omega

theorem total_congr {C' : Costs ν} {xs : List ν} (h : ∀ x ∈ xs, C'.cost x = C.cost x) (sum : Nat) :
    C'.total sum xs = C.total sum xs := by
  induction xs generalizing sum with
  | nil => rfl
  | cons x xs ih =>
    unfold total
    rw [h x List.mem_cons_self]
    exact congrArg _ (funext fun c => ih (fun y hy => h y (List.mem_cons_of_mem x hy)) (sum + c))

end Totals

/-! ## One rule -/

section Relax

variable [DecidableEq ν] (rules : Nat → Option (Rule ν))

instance (C : Costs ν) (x : ν) (c : Nat) : Decidable (C.Improves x c) := by
  unfold Improves
  infer_instance

/-- Rule `i` is tried. -/
def relax (C : Costs ν) (i : Nat) : Costs ν :=
  match rules i with
  | none => C
  | some r =>
    match C.total r.weight r.sources with
    | none => C
    | some c => if C.Improves r.target c then C.put r.target c i else C

section

variable {rules} {C : Costs ν} {i : Nat} {r : Rule ν} {c : Nat}

theorem relax_of_none (h : ∀ r, rules i = some r → C.total r.weight r.sources = none) : relax rules C i = C := by
  unfold relax
  cases hr : rules i with
  | none => rfl
  | some r =>
    dsimp only
    rw [h r hr]

theorem relax_of_improves (hr : rules i = some r) (hc : C.total r.weight r.sources = some c)
    (h : C.Improves r.target c) : relax rules C i = C.put r.target c i := by
  unfold relax
  rw [hr]
  dsimp only
  rw [hc]
  exact if_pos h

theorem relax_of_not_improves (hr : rules i = some r) (hc : C.total r.weight r.sources = some c)
    (h : ¬ C.Improves r.target c) : relax rules C i = C := by
  unfold relax
  rw [hr]
  dsimp only
  rw [hc]
  exact if_neg h

end

/-- What trying a rule can do. -/
theorem relax_cases (C : Costs ν) (i : Nat) :
    relax rules C i = C ∧ (∀ r c, rules i = some r → C.total r.weight r.sources = some c → ¬ C.Improves r.target c) ∨
      ∃ r c, rules i = some r ∧ C.total r.weight r.sources = some c ∧ C.Improves r.target c ∧
        relax rules C i = C.put r.target c i := by
  by_cases h : ∃ r c, rules i = some r ∧ C.total r.weight r.sources = some c ∧ C.Improves r.target c
  · obtain ⟨r, c, hr, hc, himproves⟩ := h
    exact .inr ⟨r, c, hr, hc, himproves, relax_of_improves hr hc himproves⟩
  · refine .inl ⟨?_, fun r c hr hc himproves => h ⟨r, c, hr, hc, himproves⟩⟩
    by_cases hr : ∃ r c, rules i = some r ∧ C.total r.weight r.sources = some c
    · obtain ⟨r, c, hr, hc⟩ := hr
      exact relax_of_not_improves hr hc fun himproves => h ⟨r, c, hr, hc, himproves⟩
    · refine relax_of_none fun r hrule => Option.eq_none_iff_forall_ne_some.mpr fun c hc => hr ⟨r, c, hrule, hc⟩

variable {rules} {C : Costs ν}

theorem lower_put {x : ν} {c i : Nat} (h : C.Improves x c) : Lower C (C.put x c i) := by
  intro y d hd
  by_cases hy : y = x
  · subst hy
    exact ⟨c, C.cost_put_self c i, le_of_lt (h d hd)⟩
  · exact ⟨d, (C.cost_put_of_ne c i hy).trans hd, le_refl d⟩

theorem put_ne {x : ν} {c i : Nat} (h : C.Improves x c) : C.put x c i ≠ C := by
  intro heq
  have hcost := C.cost_put_self (x := x) c i
  rw [heq] at hcost
  exact lt_irrefl c (h c hcost)

omit [DecidableEq ν] in
/-- A rule that improves its target does not have it as a source. -/
theorem not_mem_sources {x : ν} {c w : Nat} {xs : List ν} (h : C.Improves x c) (hc : C.total w xs = some c) :
    x ∉ xs := by
  intro hx
  obtain ⟨v, hv, hle⟩ := cost_of_mem hc hx
  have := h v hv
  omega

/-! ## What is kept -/

/-- What is kept for a node is accounted for: its rule gives no more now. `rank` grows from the sources to
the targets of the rules that still give exactly what they gave. -/
structure Backed (rules : Nat → Option (Rule ν)) (rank : ν → Nat) (C : Costs ν) : Prop where
  unset : ∀ x, C.best x = none ↔ C.cost x = none
  backed : ∀ x i c, C.best x = some i → C.cost x = some c → ∃ r c', rules i = some r ∧ r.target = x ∧
    C.total r.weight r.sources = some c' ∧ c' ≤ c ∧ (c' = c → ∀ y ∈ r.sources, rank y < rank x)

omit [DecidableEq ν] in
theorem backed_empty : Backed rules (fun _ => 0) (empty : Costs ν) where
  unset := fun _ => ⟨fun _ => rfl, fun _ => rfl⟩
  backed := fun x i c h => by cases h

omit [DecidableEq ν] in
theorem exists_above (rank : ν → Nat) (xs : List ν) : ∃ m, ∀ y ∈ xs, rank y < m := by
  induction xs with
  | nil => exact ⟨0, fun y hy => by cases hy⟩
  | cons x xs ih =>
    obtain ⟨m, hm⟩ := ih
    refine ⟨max m (rank x + 1), fun y hy => ?_⟩
    rcases List.mem_cons.mp hy with rfl | hy
    · omega
    · have := hm y hy
      omega

theorem Backed.relax {rank : ν → Nat} (h : Backed rules rank C) (i : Nat) :
    ∃ rank', Backed rules rank' (relax rules C i) := by
  rcases relax_cases rules C i with ⟨heq, -⟩ | ⟨r, c, hr, hc, himproves, heq⟩
  · rw [heq]
    exact ⟨rank, h⟩
  · rw [heq]
    have hlower : Lower C (C.put r.target c i) := lower_put himproves
    have hself := not_mem_sources himproves hc
    obtain ⟨m, hm⟩ := exists_above rank r.sources
    refine ⟨Function.update rank r.target m, fun x => ?_, fun x j d hj hd => ?_⟩
    · by_cases hx : x = r.target
      · rw [hx, best_put_self, cost_put_self]
        exact ⟨fun h => (by cases h), fun h => (by cases h)⟩
      · rw [C.best_put_of_ne c i hx, C.cost_put_of_ne c i hx]
        exact h.unset x
    · by_cases hx : x = r.target
      · subst hx
        rw [best_put_self] at hj
        rw [cost_put_self] at hd
        obtain rfl := Option.some.inj hj
        obtain rfl := Option.some.inj hd
        refine ⟨r, c, hr, rfl, ?_, le_refl c, fun _ y hy => ?_⟩
        · rw [← hc]
          refine total_congr (fun y hy => C.cost_put_of_ne c i ?_) r.weight
          rintro rfl
          exact hself hy
        · have hne : y ≠ r.target := by
            rintro rfl
            exact hself hy
          rw [Function.update_self, Function.update_of_ne hne]
          exact hm y hy
      · rw [C.best_put_of_ne c i hx] at hj
        rw [C.cost_put_of_ne c i hx] at hd
        obtain ⟨s, c', hs, htarget, hc', hle, hrank⟩ := h.backed x j d hj hd
        obtain ⟨c'', hc'', hless, hstrict⟩ := total_lower hlower (le_refl s.weight) hc'
        refine ⟨s, c'', hs, htarget, hc'', by omega, fun heq y hy => ?_⟩
        -- a source whose cost has just fallen makes the rule give less
        have hne : y ≠ r.target := by
          rintro rfl
          have hfell : (C.put r.target c i).cost r.target ≠ C.cost r.target := by
            intro hsame
            rw [cost_put_self] at hsame
            exact lt_irrefl c (himproves c hsame.symm)
          have := hstrict _ hy hfell
          omega
        rw [Function.update_of_ne hx, Function.update_of_ne hne]
        exact hrank (by omega) y hy

/-- No rule improves anything. -/
structure Solved (rules : Nat → Option (Rule ν)) (C : Costs ν) : Prop where
  unset : ∀ x, C.best x = none ↔ C.cost x = none
  /-- No rule gives less than what is kept. -/
  least : ∀ i r c, rules i = some r → C.total r.weight r.sources = some c → ∃ v ≤ c, C.cost r.target = some v
  /-- The rule kept gives exactly the cost. -/
  exact : ∀ x i, C.best x = some i → ∃ r, rules i = some r ∧ r.target = x ∧
    C.total r.weight r.sources = C.cost x
  /-- The rules kept lead back to rules without sources. -/
  grounded : WellFounded fun a b => ∃ i r, C.best b = some i ∧ rules i = some r ∧ a ∈ r.sources

/-- **Where no rule improves anything**, what is kept is solved. -/
theorem solved_of_fixed {rank : ν → Nat} (h : Backed rules rank C) (hfixed : ∀ i, relax rules C i = C) :
    Solved rules C := by
  have hleast : ∀ i r c, rules i = some r → C.total r.weight r.sources = some c →
      ∃ v ≤ c, C.cost r.target = some v := by
    intro i r c hr hc
    rcases relax_cases rules C i with ⟨-, hidle⟩ | ⟨r', c', -, -, himproves, heq⟩
    · have hnot := hidle r c hr hc
      unfold Improves at hnot
      push Not at hnot
      obtain ⟨v, hv, hle⟩ := hnot
      exact ⟨v, hle, hv⟩
    · exact absurd (heq.symm.trans (hfixed i)) (put_ne himproves)
  have hexact : ∀ x i, C.best x = some i → ∃ r c, rules i = some r ∧ r.target = x ∧
      C.total r.weight r.sources = some c ∧ C.cost x = some c ∧ ∀ y ∈ r.sources, rank y < rank x := by
    intro x i hi
    cases hc : C.cost x with
    | none =>
      rw [(h.unset x).mpr hc] at hi
      cases hi
    | some c =>
      obtain ⟨r, c', hr, htarget, hc', hle, hrank⟩ := h.backed x i c hi hc
      obtain ⟨v, hvle, hv⟩ := hleast i r c' hr hc'
      rw [htarget, hc] at hv
      obtain rfl := Option.some.inj hv
      obtain rfl : c' = c := by omega
      exact ⟨r, c', hr, htarget, hc', rfl, hrank rfl⟩
  refine ⟨h.unset, hleast, fun x i hi => ?_, ?_⟩
  · obtain ⟨r, c, hr, htarget, hc, hcost, -⟩ := hexact x i hi
    exact ⟨r, hr, htarget, hc.trans hcost.symm⟩
  · refine Subrelation.wf (r := InvImage (· < ·) rank) ?_ (InvImage.wf rank wellFounded_lt)
    rintro a b ⟨i, r, hi, hr, ha⟩
    obtain ⟨r', c, hr', -, -, -, hrank⟩ := hexact b i hi
    rw [hr] at hr'
    obtain rfl := Option.some.inj hr'
    exact hrank a ha

/-! ## Sweeps without an end -/

variable (rules) in
/-- After `j` tries, in turn and in unbounded arithmetic. -/
def relaxed (n : Nat) : Nat → Costs ν
  | 0 => empty
  | j + 1 => relax rules (relaxed n j) (j % n)

variable (rules) in
/-- The sums of rule `i` stay below `top`. -/
def Fits (top : Nat) (C : Costs ν) (i : Nat) : Prop :=
  ∀ r, rules i = some r → ∀ s ∈ C.sums r.weight r.sources, s < top

variable (rules) in
/-- No sum in the sweeps reaches `top`. -/
def Bounded (n top : Nat) : Prop := ∀ j, Fits rules top (relaxed rules n j) (j % n)

theorem backed_relaxed (n j : Nat) : ∃ rank, Backed rules rank (relaxed rules n j) := by
  induction j with
  | zero => exact ⟨_, backed_empty⟩
  | succ j ih =>
    obtain ⟨rank, h⟩ := ih
    exact h.relax (j % n)

/-- Once nothing is improved, nothing is any more. -/
theorem relaxed_fixed {n j : Nat} (h : ∀ i, relax rules (relaxed rules n j) i = relaxed rules n j) (m : Nat) :
    relaxed rules n (j + m) = relaxed rules n j := by
  induction m with
  | zero => rfl
  | succ m ih =>
    rw [← Nat.add_assoc, relaxed, ih]
    exact h _

/-! ## Sweeps end -/

/-- The costs kept, with `top` for a node that has none. -/
def size (top : Nat) (nodes : List ν) (C : Costs ν) : Nat := (nodes.map fun x => (C.cost x).getD top).sum

omit [DecidableEq ν] in
theorem size_le {C' : Costs ν} (top : Nat) (h : ∀ x, (C'.cost x).getD top ≤ (C.cost x).getD top) (nodes : List ν) :
    size top nodes C' ≤ size top nodes C := by
  induction nodes with
  | nil => exact le_refl _
  | cons x nodes ih =>
    unfold size at ih ⊢
    rw [List.map_cons, List.map_cons, List.sum_cons, List.sum_cons]
    exact Nat.add_le_add (h x) ih

theorem size_put {top : Nat} {nodes : List ν} {x : ν} {c i : Nat} (h : C.Improves x c) (hc : c < top)
    (hx : x ∈ nodes) : size top nodes (C.put x c i) < size top nodes C := by
  have hless : c < (C.cost x).getD top := by
    cases hold : C.cost x with
    | none => exact hc
    | some old => exact h old hold
  have hle : ∀ y, ((C.put x c i).cost y).getD top ≤ (C.cost y).getD top := by
    intro y
    by_cases hy : y = x
    · rw [hy, cost_put_self]
      exact le_of_lt hless
    · rw [C.cost_put_of_ne c i hy]
  obtain ⟨before, after, rfl⟩ := List.append_of_mem hx
  have hbefore := size_le top hle before
  have hafter := size_le top hle after
  unfold size at hbefore hafter ⊢
  rw [List.map_append, List.map_append, List.sum_append, List.sum_append, List.map_cons, List.map_cons, List.sum_cons,
    List.sum_cons, cost_put_self, Option.getD_some]
  omega

omit [DecidableEq ν] in
/-- Below the bound a total is too. -/
theorem total_lt {top sum c : Nat} {xs : List ν} (h : ∀ s ∈ C.sums sum xs, s < top) (hsum : sum < top)
    (hc : C.total sum xs = some c) : c < top := by
  induction xs generalizing sum with
  | nil =>
    obtain rfl : sum = c := Option.some.inj hc
    exact hsum
  | cons x xs ih =>
    unfold total at hc
    rw [Option.bind_eq_some_iff] at hc
    obtain ⟨v, hv, hc⟩ := hc
    unfold sums at h
    rw [hv] at h
    exact ih (fun s hs => h s (List.mem_cons_of_mem _ hs)) (h _ List.mem_cons_self) hc

/-- **A rule that improves something makes the size smaller.** -/
theorem size_relax {top : Nat} {nodes : List ν} {i : Nat} (hfits : Fits rules top C i)
    (hrule : ∀ r, rules i = some r → r.weight < top ∧ r.target ∈ nodes) :
    relax rules C i = C ∨ size top nodes (relax rules C i) < size top nodes C := by
  rcases relax_cases rules C i with ⟨heq, -⟩ | ⟨r, c, hr, hc, himproves, heq⟩
  · exact .inl heq
  · obtain ⟨hweight, htarget⟩ := hrule r hr
    rw [heq]
    exact .inr (size_put himproves (total_lt (hfits r hr) hweight hc) htarget)

end Relax

/-! ## A loop of sweeps -/

section Loop

variable [DecidableEq ν] {σ : Type} {rules : Nat → Option (Rule ν)} {n top : Nat} {nodes : List ν}

/-- The rules that can be tried. -/
structure Ruled (rules : Nat → Option (Rule ν)) (n top : Nat) (nodes : List ν) : Prop where
  lt : ∀ i r, rules i = some r → i < n
  weight : ∀ i r, rules i = some r → r.weight < top
  target : ∀ i r, rules i = some r → r.target ∈ nodes

/-- `body` tries the `n` rules in turn with `step`, and goes on if that has improved something. A sum that
does not stay below `top` is a failure. -/
structure Sweeping (rules : Nat → Option (Rule ν)) (n top : Nat) (Inv : σ → Prop) (view : σ → Costs ν)
    (improved : σ → Bool) (step : σ → Nat → Option σ) (body : σ → Option (σ ⊕ σ)) : Prop where
  refused : ∀ s i, Inv s → ¬ Fits rules top (view s) i → step s i = none
  tried : ∀ s i, Inv s → Fits rules top (view s) i → ∃ s', step s i = some s' ∧ Inv s' ∧
    view s' = relax rules (view s) i ∧ (improved s' = true ↔ improved s = true ∨ relax rules (view s) i ≠ view s)
  sweep : ∀ s, Inv s → ∃ s₀, Inv s₀ ∧ view s₀ = view s ∧ improved s₀ = false ∧
    body s = ((List.range n).foldlM step s₀).map fun s => if improved s then .inl s else .inr s

/-- What a sweep from rule `m` on comes to, the `k`-th. -/
structure Swept (rules : Nat → Option (Rule ν)) (n top : Nat) (nodes : List ν) (Inv : σ → Prop) (view : σ → Costs ν)
    (improved : σ → Bool) (k m : Nat) (s s' : σ) : Prop where
  inv : Inv s'
  costs : view s' = relaxed rules n (k * n + n)
  fits : ∀ i, m ≤ i → i < n → Fits rules top (relaxed rules n (k * n + i)) i
  idle : improved s' = false → improved s = false ∧ ∀ i, m ≤ i → i < n → relax rules (view s) i = view s
  le : size top nodes (view s') ≤ size top nodes (view s)
  less : improved s' = true → improved s = true ∨ size top nodes (view s') < size top nodes (view s)

variable {Inv : σ → Prop} {view : σ → Costs ν} {improved : σ → Bool} {step : σ → Nat → Option σ}
  {body : σ → Option (σ ⊕ σ)}

theorem swept (hr : Ruled rules n top nodes) (h : Sweeping rules n top Inv view improved step body) (k : Nat)
    {len m : Nat} (hm : m + len = n) {s : σ} (hs : Inv s) (hview : view s = relaxed rules n (k * n + m)) :
    (List.range' m len).foldlM step s = none ∧ ¬ Bounded rules n top ∨
      ∃ s', (List.range' m len).foldlM step s = some s' ∧ Swept rules n top nodes Inv view improved k m s s' := by
  induction len generalizing m s with
  | zero =>
    obtain rfl : m = n := hm
    exact .inr ⟨s, rfl, hs, hview, fun i hi hi' => by omega, fun himproved => ⟨himproved, fun i hi hi' => by omega⟩,
      le_refl _, .inl⟩
  | succ len ih =>
    have hmod : (k * n + m) % n = m := by
      rw [Nat.add_comm, Nat.add_mul_mod_self_right, Nat.mod_eq_of_lt (by omega)]
    rw [List.range'_succ, List.foldlM_cons]
    by_cases hfits : Fits rules top (view s) m
    · obtain ⟨s₁, hstep, hs₁, hview₁, himproved₁⟩ := h.tried s m hs hfits
      have hnext : view s₁ = relaxed rules n (k * n + (m + 1)) := by
        rw [hview₁, hview, ← Nat.add_assoc, relaxed, hmod]
      have hsize := size_relax hfits fun r hrule => ⟨hr.weight m r hrule, hr.target m r hrule⟩
      rw [← hview₁] at hsize himproved₁
      rw [hstep, Option.bind_eq_bind, Option.bind_some]
      rcases ih (by omega) hs₁ hnext with hnone | ⟨s', hrest, hswept⟩
      · exact .inl hnone
      · refine .inr ⟨s', hrest, hswept.inv, hswept.costs, fun i hi hi' => ?_, fun hidle => ?_, ?_, fun hbetter => ?_⟩
        · rcases Nat.eq_or_lt_of_le hi with rfl | hi
          · rw [← hview]
            exact hfits
          · exact hswept.fits i hi hi'
        · obtain ⟨hidle₁, hrest⟩ := hswept.idle hidle
          have hnot := mt himproved₁.mpr (by rw [hidle₁]; decide)
          push Not at hnot
          obtain ⟨hflag, hsame⟩ := hnot
          rw [hsame] at hrest
          refine ⟨by simpa using hflag, fun i hi hi' => ?_⟩
          rcases Nat.eq_or_lt_of_le hi with rfl | hi
          · exact hview₁.symm.trans hsame
          · exact hrest i hi hi'
        · refine hswept.le.trans ?_
          rcases hsize with heq | hless
          · rw [heq]
          · exact le_of_lt hless
        · rcases hswept.less hbetter with hflag | hless
          · rcases himproved₁.mp hflag with hflag | hne
            · exact .inl hflag
            · exact .inr (lt_of_le_of_lt hswept.le (hsize.resolve_left hne))
          · refine .inr (lt_of_lt_of_le hless ?_)
            rcases hsize with heq | hless
            · rw [heq]
            · exact le_of_lt hless
    · rw [h.refused s m hs hfits]
      refine .inl ⟨rfl, fun hbounded => hfits ?_⟩
      have hfits := hbounded (k * n + m)
      rwa [hmod, ← hview] at hfits

/-- A sweep from the first rule on. -/
theorem sweep_spec (hr : Ruled rules n top nodes) (h : Sweeping rules n top Inv view improved step body) {k : Nat}
    {s : σ} (hs : Inv s) (hview : view s = relaxed rules n (k * n)) :
    body s = none ∧ ¬ Bounded rules n top ∨ ∃ s₀ s', body s = some (if improved s' then .inl s' else .inr s') ∧
      view s₀ = view s ∧ improved s₀ = false ∧ Swept rules n top nodes Inv view improved k 0 s₀ s' := by
  obtain ⟨s₀, hs₀, hview₀, hflag, hbody⟩ := h.sweep s hs
  rw [hbody, List.range_eq_range']
  rcases swept hr h k (Nat.zero_add n) hs₀ (hview₀.trans hview) with ⟨hnone, hnot⟩ | ⟨s', hsome, hswept⟩
  · rw [hnone]
    exact .inl ⟨rfl, hnot⟩
  · rw [hsome]
    exact .inr ⟨s₀, s', rfl, hview₀, hflag, hswept⟩

/-- A sweep adds its own rules to those that fitted before it. -/
theorem fits_swept {k : Nat} {s₀ s' : σ} (hswept : Swept rules n top nodes Inv view improved k 0 s₀ s')
    (hfits : ∀ j < k * n, Fits rules top (relaxed rules n j) (j % n)) :
    ∀ j < (k + 1) * n, Fits rules top (relaxed rules n j) (j % n) := by
  intro j hj
  by_cases hlt : j < k * n
  · exact hfits j hlt
  · rw [Nat.add_mul, Nat.one_mul] at hj
    obtain ⟨m, rfl⟩ : ∃ m, j = k * n + m := ⟨j - k * n, by omega⟩
    rw [Nat.add_comm (k * n) m, Nat.add_mul_mod_self_right, Nat.mod_eq_of_lt (by omega), Nat.add_comm m]
    exact hswept.fits m (Nat.zero_le m) (by omega)

/-- A sweep that improves nothing leaves nothing to improve. -/
theorem fixed_of_idle (hr : Ruled rules n top nodes) {k : Nat} {s₀ s' : σ}
    (hview : view s₀ = relaxed rules n (k * n)) (hswept : Swept rules n top nodes Inv view improved k 0 s₀ s')
    (hidle : improved s' = false) :
    ∀ i, relax rules (relaxed rules n (k * n)) i = relaxed rules n (k * n) := by
  obtain ⟨-, hfixed⟩ := hswept.idle hidle
  rw [hview] at hfixed
  intro i
  by_cases hi : i < n
  · exact hfixed i (Nat.zero_le i) hi
  · unfold relax
    cases hrule : rules i with
    | none => rfl
    | some r => exact absurd (hr.lt i r hrule) hi

/-- **The sweeps end**, with what is kept solved, if no sum reaches the bound. -/
theorem sweeps_settle (hr : Ruled rules n top nodes) (h : Sweeping rules n top Inv view improved step body)
    (hbounded : Bounded rules n top) {s : σ} (hs : Inv s) (hview : view s = empty) :
    ∃ s', Settles (fun fuel => loop body fuel s) s' ∧ Inv s' ∧ Solved rules (view s') := by
  refine settles_loop (fun _ => body) (P := fun s => Inv s ∧ ∃ k, view s = relaxed rules n (k * n))
    (Q := fun s => Inv s ∧ Solved rules (view s)) (fun s => size top nodes (view s)) (fun s hs => ?_) s
    ⟨hs, 0, by rw [Nat.zero_mul]; exact hview⟩
  obtain ⟨hs, k, hview⟩ := hs
  rcases sweep_spec hr h hs hview with ⟨-, hnot⟩ | ⟨s₀, s', hbody, hview₀, hflag, hswept⟩
  · exact absurd hbounded hnot
  · refine ⟨_, .of_forall fun _ => hbody, fun s₁ hgo => ?_, fun s₁ hleave => ?_⟩
    · cases hbetter : improved s' with
      | false =>
        rw [hbetter] at hgo
        cases hgo
      | true =>
        rw [hbetter] at hgo
        obtain rfl := Sum.inl.inj hgo
        refine ⟨?_, hswept.inv, k + 1, by rw [hswept.costs, Nat.add_mul, Nat.one_mul]⟩
        rcases hswept.less hbetter with htrue | hless
        · rw [hflag] at htrue
          cases htrue
        · rwa [hview₀] at hless
    · cases hidle : improved s' with
      | true =>
        rw [hidle] at hleave
        cases hleave
      | false =>
        rw [hidle] at hleave
        obtain rfl := Sum.inr.inj hleave
        have hfixed := fixed_of_idle hr (hview₀.trans hview) hswept hidle
        obtain ⟨rank, hbacked⟩ : ∃ rank, Backed rules rank (relaxed rules n (k * n)) := backed_relaxed n (k * n)
        refine ⟨hswept.inv, ?_⟩
        rw [hswept.costs, relaxed_fixed hfixed n]
        exact solved_of_fixed hbacked hfixed

/-- **Sweeps that end stayed below the bound**, and would if they went on. -/
theorem bounded_of_ended (hr : Ruled rules n top nodes) (h : Sweeping rules n top Inv view improved step body)
    {fuel : Nat} {s s' : σ} (hs : Inv s) (hview : view s = empty) (hrun : loop body fuel s = some s') :
    Bounded rules n top := by
  refine loop_inv (P := fun s => ∃ k, Inv s ∧ view s = relaxed rules n (k * n) ∧
      ∀ j < k * n, Fits rules top (relaxed rules n j) (j % n)) (Q := fun _ => Bounded rules n top)
    (fun s s₁ hs hgo => ?_) (fun s s₁ hs hleave => ?_) fuel s s'
    ⟨0, hs, by rw [Nat.zero_mul]; exact hview, fun j hj => by omega⟩ hrun
  · obtain ⟨k, hs, hview, hfits⟩ := hs
    rcases sweep_spec hr h hs hview with ⟨hnone, -⟩ | ⟨s₀, s₂, hbody, -, -, hswept⟩
    · rw [hnone] at hgo
      cases hgo
    · rw [hbody] at hgo
      have hgo := Option.some.inj hgo
      cases hbetter : improved s₂ with
      | false =>
        rw [hbetter] at hgo
        cases hgo
      | true =>
        rw [hbetter] at hgo
        obtain rfl := Sum.inl.inj hgo
        refine ⟨k + 1, hswept.inv, by rw [hswept.costs, Nat.add_mul, Nat.one_mul], ?_⟩
        exact fits_swept hswept hfits
  · obtain ⟨k, hs, hview, hfits⟩ := hs
    rcases sweep_spec hr h hs hview with ⟨hnone, -⟩ | ⟨s₀, s₂, hbody, hview₀, -, hswept⟩
    · rw [hnone] at hleave
      cases hleave
    · rw [hbody] at hleave
      have hleave := Option.some.inj hleave
      cases hidle : improved s₂ with
      | true =>
        rw [hidle] at hleave
        cases hleave
      | false =>
        have hfixed := fixed_of_idle hr (hview₀.trans hview) hswept hidle
        intro j
        by_cases hj : j < k * n
        · exact hfits j hj
        · obtain ⟨m, rfl⟩ : ∃ m, j = k * n + m := ⟨j - k * n, by omega⟩
          rw [relaxed_fixed hfixed m]
          intro r hrule
          have hlt := hr.lt _ r hrule
          have hfit := hswept.fits _ (Nat.zero_le _) hlt
          rw [relaxed_fixed hfixed] at hfit
          exact hfit r hrule

end Loop

end Bbq.Lib.Sweep
