import Mathlib.Algebra.Order.BigOperators.Group.List
import Mathlib.Algebra.Order.Group.Nat
import Mathlib.Algebra.Ring.Nat
import Bbq.Lib.Settle
import Bbq.Peg.Sets

/-!
# The fixpoint of FIRST sets

What the worklist of `compute_first_sets` leaves behind.

* `Table G U queue ps`: the entries agree with themselves, sets only grow, within `U`, and the set of an entry that is
  not in the queue is the one of its body.
* `Table.replaced`: replacing a set keeps it, with the callers put in the queue.
* **`computeFirstSets_settles`**: the loop ends, with the entries it began with and every set the one of its body. What
  falls is the room that is left in the sets, and where they stay the length of the queue.
-/

namespace Bbq.Peg

open Bbq.Lib

variable {G : Grammar} {ps : Infos} {queue : List String} {name : String}

/-! ## One entry is replaced -/

/-- The entry with another set. -/
def ProductionInfo.withFirst (i : ProductionInfo) (first : List FirstElement) : ProductionInfo :=
  { i with firstSet := first, nullable := first.contains .epsilon }

theorem named_update (first : List FirstElement) (name' : String) : (ps.update name first).named name' =
    (ps.named name').map fun i => if i.node.name = name then i.withFirst first else i := by
  have hname : ∀ i : ProductionInfo, (if i.node.name = name then i.withFirst first else i).node.name = i.node.name :=
    fun i => by split <;> rfl
  have hcomp : ((fun i : ProductionInfo => i.node.name == name') ∘
      fun i => if i.node.name = name then i.withFirst first else i) = fun i => i.node.name == name' := by
    funext i
    simp only [Function.comp, hname]
  exact (List.find?_map ..).trans (congrArg (fun q => (ps.find? q).map _) hcomp)

theorem named_update_self {first : List FirstElement} {i : ProductionInfo} (h : ps.named name = some i) :
    (ps.update name first).named name = some (i.withFirst first) := by
  rw [named_update, h, Option.map_some, if_pos (Infos.name_of_named h)]

theorem named_update_of_ne {first : List FirstElement} {name' : String} (h : name' ≠ name) :
    (ps.update name first).named name' = ps.named name' := by
  rw [named_update]
  cases hi : ps.named name' with
  | none => rfl
  | some i => rw [Option.map_some, if_neg (Infos.name_of_named hi ▸ h)]

/-- What the loop leaves alone. -/
def Infos.frame (ps : Infos) : List (Production × Bool) := ps.map fun i => (i.node, i.leftRecursive)

theorem frame_update (first : List FirstElement) : (ps.update name first).frame = ps.frame := by
  unfold Infos.frame Infos.update
  rw [List.map_map]
  refine List.map_congr_left fun i _ => ?_
  simp only [Function.comp]
  split <;> rfl

theorem names_update (first : List FirstElement) :
    ((ps.update name first).map fun i => i.node.name) = ps.map fun i => i.node.name := by
  have h : (ps.update name first).frame.map _ = _ :=
    congrArg (List.map fun x : Production × Bool => x.1.name) (frame_update first)
  simpa only [Infos.frame, List.map_map, Function.comp_def] using h

/-! ## The queue -/

theorem mem_push {name' : String} : name' ∈ push queue name ↔ name' ∈ queue ∨ name' = name := by
  unfold push
  split
  · next hthere =>
    have hthere : name ∈ queue := by simpa using hthere
    exact ⟨.inl, fun h => h.elim id fun he => he ▸ hthere⟩
  · simp

theorem mem_foldl_push {names : List String} {name' : String} :
    name' ∈ names.foldl push queue ↔ name' ∈ queue ∨ name' ∈ names := by
  induction names generalizing queue with
  | nil => simp
  | cons n names ih =>
    rw [List.foldl_cons, ih, mem_push, List.mem_cons, or_assoc]

theorem nodup_foldl_push {names : List String} (h : queue.Nodup) : (names.foldl push queue).Nodup := by
  induction names generalizing queue with
  | nil => exact h
  | cons n names ih =>
    refine ih ?_
    unfold push
    split
    · exact h
    · next hnot =>
      have hnot : n ∉ queue := by simpa using hnot
      exact List.nodup_append.mpr ⟨h, List.pairwise_singleton _ n, fun a ha b hb hab =>
        hnot (List.mem_singleton.mp hb ▸ hab ▸ ha)⟩

/-! ## The invariant -/

/-- What the loop keeps. -/
structure Table (G : Grammar) (U : List FirstElement) (queue : List String) (ps : Infos) : Prop where
  proper : ps.Proper
  /-- The set of an entry is part of the one of its body. -/
  grows : ∀ name i, ps.named name = some i → i.firstSet ⊆ firstOf G ps i.node.body
  within : ∀ i ∈ ps, i.firstSet ⊆ U
  elements : ∀ i ∈ ps, elements i.node.body ⊆ U
  /-- The set of an entry that is not in the queue is the one of its body. -/
  fixed : ∀ name i, ps.named name = some i → i.leftRecursive = false → name ∉ queue →
    firstSetEq (firstOf G ps i.node.body) i.firstSet = true
  queued : queue ⊆ ps.map fun i => i.node.name
  once : queue.Nodup

namespace Table

variable {U : List FirstElement}

/-- The front of the queue is dropped: its entry is as it should be, or there is none that counts. -/
theorem dropped (h : Table G U (name :: queue) ps)
    (hname : ∀ i, ps.named name = some i → i.leftRecursive = false →
      firstSetEq (firstOf G ps i.node.body) i.firstSet = true) : Table G U queue ps where
  proper := h.proper
  grows := h.grows
  within := h.within
  elements := h.elements
  fixed := fun name' i hi hleft hnot => by
    by_cases he : name' = name
    · exact hname i (he ▸ hi) hleft
    · exact h.fixed name' i hi hleft fun hmem => (List.mem_cons.mp hmem).elim he hnot
  queued := fun _ hn => h.queued (List.mem_cons_of_mem _ hn)
  once := (List.nodup_cons.mp h.once).2

/-- A production that is not among the callers sees the same entries. -/
theorem agreeOn {first : List FirstElement} {name' : String} {i : ProductionInfo} (hi : ps.named name' = some i)
    (hnot : name' ∉ callers G ps name) : AgreeOn G ps (ps.update name first) (calledNames i.node.body) := by
  intro called hcalled hcharset htoken
  have hne : called ≠ name := by
    rintro rfl
    apply hnot
    have hcalls : called ∈ calls G i.node := List.mem_filter.mpr ⟨hcalled, by simp [hcharset, htoken]⟩
    exact List.mem_map.mpr ⟨i, List.mem_filter.mpr ⟨Infos.mem_of_named hi, by simpa using hcalls⟩,
      Infos.name_of_named hi⟩
  exact (named_update_of_ne hne).symm

variable (name) in
theorem proper_update {first : List FirstElement} (h : ps.Proper) (hfirst : first.Nodup) :
    (ps.update name first).Proper := by
  intro i hi
  obtain ⟨j, hj, rfl⟩ := List.mem_map.mp hi
  split
  · exact ⟨rfl, hfirst⟩
  · exact h j hj

theorem below_update {i : ProductionInfo} {first : List FirstElement} (hi : ps.named name = some i)
    (hsub : i.firstSet ⊆ first) : ps.Below (ps.update name first) := by
  intro name' j hj
  by_cases he : name' = name
  · subst he
    obtain rfl : i = j := Option.some.inj (hi.symm.trans hj)
    exact ⟨_, named_update_self hi, hsub⟩
  · exact ⟨j, (named_update_of_ne he).trans hj, List.Subset.refl _⟩

/-- **One round that replaces a set.** -/
theorem replaced (h : Table G U (name :: queue) ps) (hU : .epsilon ∈ U) {i : ProductionInfo}
    (hi : ps.named name = some i) :
    Table G U ((callers G ps name).foldl push queue) (ps.update name (firstOf G ps i.node.body)) := by
  have hproper := proper_update name h.proper (nodup_firstOf (G := G) h.proper i.node.body)
  have hmono := firstOf_mono (G := G) h.proper hproper (below_update hi (h.grows name i hi))
  refine ⟨hproper, ?_, ?_, ?_, ?_, ?_, ?_⟩
  · intro name' j hj
    by_cases he : name' = name
    · subst he
      obtain rfl := Option.some.inj ((named_update_self hi).symm.trans hj)
      exact hmono i.node.body
    · rw [named_update_of_ne he] at hj
      exact List.Subset.trans (h.grows name' j hj) (hmono j.node.body)
  · intro j hj
    obtain ⟨k, hk, rfl⟩ := List.mem_map.mp hj
    split
    · exact firstOf_subset hU h.within _ (h.elements i (Infos.mem_of_named hi))
    · exact h.within k hk
  · intro j hj
    obtain ⟨k, hk, rfl⟩ := List.mem_map.mp hj
    split <;> exact h.elements k hk
  · intro name' j hj hleft hnot
    rw [mem_foldl_push, not_or] at hnot
    by_cases he : name' = name
    · subst he
      obtain rfl := Option.some.inj ((named_update_self hi).symm.trans hj)
      change firstSetEq (firstOf G _ i.node.body) (firstOf G ps i.node.body) = true
      rw [← (firstOf_congr i.node.body (agreeOn hi hnot.2)).1]
      simp [firstSetEq]
    · rw [named_update_of_ne he] at hj
      rw [← (firstOf_congr j.node.body (agreeOn hj hnot.2)).1]
      exact h.fixed name' j hj hleft fun hmem => (List.mem_cons.mp hmem).elim he hnot.1
  · intro name' hname'
    rw [names_update]
    obtain hmem | hmem := mem_foldl_push.mp hname'
    · exact h.queued (List.mem_cons_of_mem _ hmem)
    · obtain ⟨j, hj, rfl⟩ := List.mem_map.mp hmem
      exact List.mem_map.mpr ⟨j, (List.mem_filter.mp hj).1, rfl⟩
  · exact nodup_foldl_push (List.nodup_cons.mp h.once).2

end Table

/-! ## The loop ends -/

/-- The number of elements in the set of a production. -/
def setSize (ps : Infos) (name : String) : Nat := ((ps.named name).map fun i => i.firstSet.length).getD 0

/-- How many elements the sets can still take. -/
def room (U : List FirstElement) (ps : Infos) : Nat :=
  ((ps.map fun i => i.node.name).map fun name => U.length - setSize ps name).sum

/-- A set that is replaced is larger than before. -/
theorem length_lt_of_replaced {a b : List FirstElement} (ha : a.Nodup) (hsub : a ⊆ b)
    (hne : firstSetEq b a = false) : a.length < b.length := by
  by_contra hle
  have hperm : a.Perm b := (ha.subperm hsub).perm_of_length_le (Nat.le_of_not_lt hle)
  have heq : firstSetEq b a = true := by
    simp only [firstSetEq, Bool.and_eq_true, beq_iff_eq, List.all_eq_true, List.contains_iff_mem]
    exact ⟨hperm.length_eq.symm, fun x hx => hperm.mem_iff.mpr hx⟩
  rw [heq] at hne
  cases hne

theorem room_update {U : List FirstElement} (h : Table G U (name :: queue) ps) (hU : .epsilon ∈ U)
    {i : ProductionInfo} (hi : ps.named name = some i)
    (hne : firstSetEq (firstOf G ps i.node.body) i.firstSet = false) :
    room U (ps.update name (firstOf G ps i.node.body)) < room U ps := by
  have hself : setSize (ps.update name (firstOf G ps i.node.body)) name = (firstOf G ps i.node.body).length := by
    rw [setSize, named_update_self hi]
    rfl
  have hlt : setSize ps name < (firstOf G ps i.node.body).length := by
    rw [setSize, hi]
    exact length_lt_of_replaced (h.proper i (Infos.mem_of_named hi)).nodup (h.grows name i hi) hne
  have hle : (firstOf G ps i.node.body).length ≤ U.length :=
    ((nodup_firstOf h.proper _).subperm
      (firstOf_subset hU h.within _ (h.elements i (Infos.mem_of_named hi)))).length_le
  unfold room
  rw [names_update]
  refine List.sum_lt_sum _ _ (fun name' _ => ?_) ⟨name, h.queued (List.mem_cons_self ..), ?_⟩
  · by_cases he : name' = name
    · subst he
      omega
    · rw [setSize, named_update_of_ne he]
      exact Nat.le_refl _
  · omega

/-- The loop ends with every set the one of its body, by induction on the room that is left. -/
theorem firstSetsFrom_settles {U : List FirstElement} (hU : .epsilon ∈ U) (n : Nat) (queue : List String) (ps : Infos)
    (h : Table G U queue ps) (hn : room U ps * (ps.length + 1) + queue.length ≤ n) :
    ∃ ps', (∀ fuel, n ≤ fuel → firstSetsFrom G fuel queue ps = some ps') ∧ Table G U [] ps' ∧ ps'.frame = ps.frame := by
  induction n generalizing queue ps with
  | zero =>
    obtain rfl : queue = [] := List.eq_nil_of_length_eq_zero (by omega)
    exact ⟨ps, fun fuel _ => by cases fuel <;> rfl, h, rfl⟩
  | succ n ih =>
    match queue, h with
    | [], h => exact ⟨ps, fun fuel _ => by cases fuel <;> rfl, h, rfl⟩
    | name :: queue, h =>
      rw [List.length_cons] at hn
      -- what is run on the fuel that is left is run here
      have hstep : ∀ {queue' : List String} {ps₁ : Infos}, Table G U queue' ps₁ → ps₁.frame = ps.frame →
          room U ps₁ * (ps₁.length + 1) + queue'.length ≤ n →
          (∀ fuel, firstSetsFrom G (fuel + 1) (name :: queue) ps = firstSetsFrom G fuel queue' ps₁) →
          ∃ ps', (∀ fuel, n + 1 ≤ fuel → firstSetsFrom G fuel (name :: queue) ps = some ps') ∧ Table G U [] ps' ∧
            ps'.frame = ps.frame := by
        intro queue' ps₁ htable hframe hle heq
        obtain ⟨ps', hrun, htable', hframe'⟩ := ih queue' ps₁ htable hle
        refine ⟨ps', fun fuel hfuel => ?_, htable', hframe'.trans hframe⟩
        obtain ⟨k, rfl⟩ : ∃ k, fuel = k + 1 := ⟨fuel - 1, by omega⟩
        rw [heq]
        exact hrun k (by omega)
      cases hi : ps.named name with
      | none =>
        refine hstep (h.dropped fun i hi' => ?_) rfl (by omega) fun fuel => by rw [firstSetsFrom, hi]
        rw [hi] at hi'
        cases hi'
      | some i =>
        by_cases hsame : (i.leftRecursive || firstSetEq (firstOf G ps i.node.body) i.firstSet) = true
        · refine hstep (h.dropped fun j hj hleft => ?_) rfl (by omega) fun fuel => by
            rw [firstSetsFrom, hi]
            exact if_pos hsame
          obtain rfl := Option.some.inj (hi.symm.trans hj)
          simpa [hleft] using hsame
        · refine hstep (h.replaced hU hi) (frame_update _) ?_ fun fuel => by
            rw [firstSetsFrom, hi]
            exact if_neg hsame
          have hne : firstSetEq (firstOf G ps i.node.body) i.firstSet = false := by
            simp only [Bool.or_eq_true, not_or, Bool.not_eq_true] at hsame
            exact hsame.2
          have hroom := room_update h hU hi hne
          have hreplaced := h.replaced hU hi
          have hlen : (ps.update name (firstOf G ps i.node.body)).length = ps.length := List.length_map ..
          have hqueue : ((callers G ps name).foldl push queue).length ≤ ps.length := by
            have hle := (hreplaced.once.subperm hreplaced.queued).length_le
            rwa [List.length_map, hlen] at hle
          rw [hlen]
          have hmul := Nat.mul_le_mul_right (ps.length + 1) hroom
          rw [Nat.succ_mul] at hmul
          omega

/-! ## The productions -/

theorem insertByName_perm (p : Production) (map : List Production) : (insertByName p map).Perm (p :: map) := by
  induction map with
  | nil => exact List.Perm.refl _
  | cons q map ih =>
    rw [insertByName]
    split
    · exact List.Perm.refl _
    · exact (ih.cons q).trans (List.Perm.swap p q map)

/-- The production of that name. -/
theorem find?_name_cons (p : Production) (ps : List Production) (name : String) :
    (p :: ps).find? (fun q => q.name == name) =
      if p.name = name then some p else ps.find? fun q => q.name == name := by
  by_cases h : p.name = name
  · rw [if_pos h]
    exact List.find?_cons_of_pos (beq_iff_eq.mpr h)
  · rw [if_neg h]
    exact List.find?_cons_of_neg fun hb => h (beq_iff_eq.mp hb)

theorem find?_insertByName {p : Production} {map : List Production} (h : ∀ q ∈ map, q.name ≠ p.name) (name : String) :
    (insertByName p map).find? (fun q => q.name == name) =
      if p.name = name then some p else map.find? fun q => q.name == name := by
  induction map with
  | nil => exact find?_name_cons p [] name
  | cons q map ih =>
    rw [insertByName]
    split
    · exact find?_name_cons p (q :: map) name
    · rw [find?_name_cons, find?_name_cons, ih fun q' hq' => h q' (List.mem_cons_of_mem _ hq')]
      by_cases hq : q.name = name
      · have hp : p.name ≠ name := fun he => h q (List.mem_cons_self ..) (hq.trans he.symm)
        rw [if_pos hq, if_neg hp, if_pos hq]
      · rw [if_neg hq, if_neg hq]

/-- The production of a name in the map is the first of the text. -/
theorem find?_collectProductions (ps map : List Production) (errors : List String) (name : String) :
    (collectProductions ps map errors).1.find? (fun q => q.name == name) =
      (map.find? fun q => q.name == name).or (ps.find? fun q => q.name == name) := by
  induction ps generalizing map errors with
  | nil => exact (Option.or_none ..).symm
  | cons p ps ih =>
    rw [collectProductions, find?_name_cons]
    split
    · next hany =>
      rw [ih]
      split
      · next hp =>
        have hsome : (map.find? fun q => q.name == name).isSome := by
          rw [List.find?_isSome]
          simpa [hp] using hany
        obtain ⟨q, hq⟩ := Option.isSome_iff_exists.mp hsome
        rw [hq, Option.some_or, Option.some_or]
      · rfl
    · next hany =>
      have hfresh : ∀ q ∈ map, q.name ≠ p.name := by simpa using hany
      rw [ih, find?_insertByName hfresh]
      split
      · next hp =>
        have hnone : map.find? (fun q => q.name == name) = none := by
          rw [List.find?_eq_none]
          intro q hq
          simpa [hp] using hfresh q hq
        rw [hnone, Option.some_or, Option.none_or]
      · rfl

theorem nodup_collectProductions (ps map : List Production) (errors : List String)
    (h : (map.map fun p => p.name).Nodup) : ((collectProductions ps map errors).1.map fun p => p.name).Nodup := by
  induction ps generalizing map errors with
  | nil => exact h
  | cons p ps ih =>
    rw [collectProductions]
    split
    · exact ih _ _ h
    · next hany =>
      have hfresh : ∀ q ∈ map, q.name ≠ p.name := by simpa using hany
      refine ih _ _ (((insertByName_perm p map).map _).nodup_iff.mpr (List.nodup_cons.mpr ⟨fun hmem => ?_, h⟩))
      obtain ⟨q, hq, hname⟩ := List.mem_map.mp hmem
      exact hfresh q hq hname

/-! ## The fixpoint -/

/-- Where the loop has ended: every set is the one of its body. -/
structure Infos.Fixed (G : Grammar) (ps : Infos) : Prop where
  proper : ps.Proper
  mem_iff : ∀ name i, ps.named name = some i → i.leftRecursive = false →
    ∀ x, x ∈ firstOf G ps i.node.body ↔ x ∈ i.firstSet

theorem initial_table : Table G (.epsilon :: (initialInfos G).flatMap fun i => elements i.node.body)
    ((initialInfos G).map fun i => i.node.name) (initialInfos G) where
  proper := fun i hi => by
    obtain ⟨p, -, rfl⟩ := List.mem_map.mp hi
    exact ⟨rfl, List.nodup_nil⟩
  grows := fun name i hi => by
    obtain ⟨p, -, rfl⟩ := List.mem_map.mp (Infos.mem_of_named hi)
    exact List.nil_subset _
  within := fun i hi => by
    obtain ⟨p, -, rfl⟩ := List.mem_map.mp hi
    exact List.nil_subset _
  elements := fun i hi x hx => List.mem_cons_of_mem _ (List.mem_flatMap.mpr ⟨i, hi, hx⟩)
  fixed := fun name i hi _ hnot =>
    absurd (List.mem_map.mpr ⟨i, Infos.mem_of_named hi, Infos.name_of_named hi⟩) hnot
  queued := List.Subset.refl _
  once := by
    have h := nodup_collectProductions G.productions [] [] List.nodup_nil
    simpa only [initialInfos, List.map_map, Function.comp_def] using h

/-- **The worklist comes to an end, at a fixpoint.** -/
theorem computeFirstSets_settles (G : Grammar) :
    ∃ ps, Settles (computeFirstSets G) ps ∧ ps.Fixed G ∧ ps.frame = (initialInfos G).frame := by
  obtain ⟨ps, hrun, htable, hframe⟩ :=
    firstSetsFrom_settles (List.mem_cons_self ..) _ _ _ (initial_table (G := G)) (Nat.le_refl _)
  refine ⟨ps, ⟨_, hrun⟩, ⟨htable.proper, fun name i hi hleft x => ?_⟩, hframe⟩
  exact mem_iff_of_firstSetEq (htable.fixed name i hi hleft List.not_mem_nil) (nodup_firstOf htable.proper _)

end Bbq.Peg
