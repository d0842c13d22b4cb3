import Mathlib.Data.List.Perm.Subperm
import Bbq.Peg.First

/-!
# Members of FIRST sets

What is in the sets of `nullable_of` and `first_of`, given the entries of the productions.

* `mem_firstSetUnion`, `mem_firstSeq`, `mem_firstChoice`: the operations on sets, by their members.
* `epsilon_mem_firstOf`: the two functions agree on `ε`.
* `firstOf_congr` and `firstOf_mono`: what a set depends on, and that it grows with the entries.
* `firstOf_subset`: the elements there can be are those that are written in the bodies, and `ε`.
-/

namespace Bbq.Peg

variable {G : Grammar} {ps : Infos} {x : FirstElement}

/-! ## Sets -/

theorem mem_firstSetUnion {dest src : List FirstElement} {b : Bool} :
    x ∈ firstSetUnion dest b src ↔ x ∈ dest ∨ x ∈ src ∧ (b = true ∨ x ≠ .epsilon) := by
  induction src generalizing dest with
  | nil => simp [firstSetUnion]
  | cons e src ih =>
    rw [firstSetUnion]
    split
    · next hskip =>
      obtain ⟨rfl, rfl⟩ : b = false ∧ e = .epsilon := by simpa using hskip
      rw [ih]
      grind
    · next hkeep =>
      have hmem : x ∈ (if dest.contains e then dest else dest ++ [e]) ↔ x ∈ dest ∨ x = e := by
        split
        · next hthere =>
          have hthere : e ∈ dest := by simpa using hthere
          exact ⟨.inl, fun h => h.elim id fun he => he ▸ hthere⟩
        · simp
      have hb : b = true ∨ e ≠ .epsilon := by
        by_contra hno
        exact hkeep (by simpa using hno)
      rw [ih, hmem, List.mem_cons]
      grind

theorem nodup_firstSetUnion {dest src : List FirstElement} {b : Bool} (h : dest.Nodup) :
    (firstSetUnion dest b src).Nodup := by
  induction src generalizing dest with
  | nil => exact h
  | cons e src ih =>
    rw [firstSetUnion]
    split
    · exact ih h
    · apply ih
      split
      · exact h
      · next hnot =>
        have hnot : e ∉ dest := by simpa using hnot
        exact List.nodup_append.mpr ⟨h, List.pairwise_singleton _ e, fun a ha b hb hab =>
          hnot (List.mem_singleton.mp hb ▸ hab ▸ ha)⟩

theorem mem_withEpsilon {s : List FirstElement} : x ∈ withEpsilon s ↔ x ∈ s ∨ x = .epsilon := by
  unfold withEpsilon
  split
  · next hthere =>
    have hthere : FirstElement.epsilon ∈ s := by simpa using hthere
    exact ⟨.inl, fun h => h.elim id fun he => he ▸ hthere⟩
  · simp

theorem nodup_withEpsilon {s : List FirstElement} (h : s.Nodup) : (withEpsilon s).Nodup := by
  unfold withEpsilon
  split
  · exact h
  · next hnot =>
    have hnot : FirstElement.epsilon ∉ s := by simpa using hnot
    exact List.nodup_append.mpr ⟨h, List.pairwise_singleton _ _, fun a ha b hb hab =>
      hnot (List.mem_singleton.mp hb ▸ hab ▸ ha)⟩

theorem mem_iff_of_firstSetEq {a b : List FirstElement} (h : firstSetEq a b = true) (ha : a.Nodup) :
    x ∈ a ↔ x ∈ b := by
  simp only [firstSetEq, Bool.and_eq_true, beq_iff_eq, List.all_eq_true, List.contains_iff_mem] at h
  obtain ⟨hlen, hsub⟩ := h
  have hperm : a.Perm b := (ha.subperm hsub).perm_of_length_le (Nat.le_of_eq hlen.symm)
  exact hperm.mem_iff

/-! ## The sets of sequences and choices -/

/-- The members a sequence adds to those that are there. -/
theorem mem_firstSeq {result : List FirstElement} {es : List PegExpr} :
    x ∈ firstSeq G ps result es ↔ x ∈ result ∨ x ∈ firstSeq G ps [] es := by
  induction es generalizing result with
  | nil => simp [firstSeq]
  | cons e es ih =>
    rw [firstSeq, firstSeq]
    split
    · rw [ih, @ih (firstSetUnion [] false _), mem_firstSetUnion, mem_firstSetUnion]
      simp only [List.not_mem_nil, false_or, or_assoc]
    · simp only [mem_firstSetUnion, List.not_mem_nil, false_or]

theorem mem_firstSeq_cons {e : PegExpr} {es : List PegExpr} : x ∈ firstSeq G ps [] (e :: es) ↔
    (x ∈ firstOf G ps e ∧ x ≠ .epsilon) ∨ (nullableOf G ps e = true ∧ x ∈ firstSeq G ps [] es) := by
  rw [firstSeq]
  split
  · next hnull =>
    rw [mem_firstSeq, mem_firstSetUnion]
    simp [hnull]
  · next hnull =>
    rw [mem_firstSetUnion]
    simp [hnull]

theorem mem_firstChoice {result : List FirstElement} {es : List PegExpr} :
    x ∈ firstChoice G ps result es ↔ x ∈ result ∨ ∃ e ∈ es, x ∈ firstOf G ps e := by
  induction es generalizing result with
  | nil => simp [firstChoice]
  | cons e es ih =>
    rw [firstChoice, ih, mem_firstSetUnion]
    simp [or_assoc]

theorem nullableAny_iff {es : List PegExpr} :
    nullableAny G ps es = true ↔ ∃ e ∈ es, nullableOf G ps e = true := by
  induction es with
  | nil => simp [nullableAny]
  | cons e es ih => simp [nullableAny, ih]

/-! ## What the entries say of themselves -/

/-- `nullable` is that `ε` is in the set, and no element is in it twice. -/
structure ProductionInfo.Proper (i : ProductionInfo) : Prop where
  nullable : i.nullable = i.firstSet.contains .epsilon
  nodup : i.firstSet.Nodup

def Infos.Proper (ps : Infos) : Prop := ∀ i ∈ ps, i.Proper

theorem Infos.mem_of_named {name : String} {i : ProductionInfo} (h : ps.named name = some i) : i ∈ ps :=
  List.mem_of_find?_eq_some h

theorem Infos.name_of_named {name : String} {i : ProductionInfo} (h : ps.named name = some i) : i.node.name = name := by
  have hname := List.find?_some h
  exact beq_iff_eq.mp hname

mutual

/-- `first_of` and `nullable_of` agree on `ε`. -/
theorem epsilon_mem_firstOf (hps : ps.Proper) :
    ∀ e : PegExpr, .epsilon ∈ firstOf G ps e ↔ nullableOf G ps e = true
  | .literal _ => by simp [firstOf, nullableOf]
  | .ruleCall name _ => by
    rw [firstOf, nullableOf]
    by_cases hc : G.isCharsetName name = true
    · simp [hc]
    · by_cases ht : G.isTokenName name = true
      · simp [hc, ht]
      · cases hi : ps.named name with
        | none => simp [hc, ht]
        | some i => simp [hc, ht, (hps i (Infos.mem_of_named hi)).nullable]
  | .sequence es => by
    rw [firstOf, nullableOf]
    exact epsilon_mem_firstSeq hps es
  | .choice es => by
    rw [firstOf, nullableOf, mem_firstChoice, nullableAny_iff]
    simp only [List.not_mem_nil, false_or]
    exact epsilon_mem_alternatives hps es
  | .star _ | .optional _ => by simp [firstOf, nullableOf, mem_withEpsilon]
  | .plus body | .group body | .resolver _ body => by
    rw [firstOf, nullableOf]
    exact epsilon_mem_firstOf hps body
  | .anyExpr => by simp [firstOf, nullableOf]
  | .charsetRef _ => by simp [firstOf, nullableOf]
  | .tokenRef _ => by simp [firstOf, nullableOf]
  | .action _ => by simp [firstOf, nullableOf]
  | .and _ => by simp [firstOf, nullableOf]
  | .not _ => by simp [firstOf, nullableOf]
  | .charRange _ _ => by simp [firstOf, nullableOf]

theorem epsilon_mem_firstSeq (hps : ps.Proper) :
    ∀ es : List PegExpr, .epsilon ∈ firstSeq G ps [] es ↔ nullableAll G ps es = true
  | [] => by simp [firstSeq, nullableAll]
  | e :: es => by
    rw [mem_firstSeq_cons, epsilon_mem_firstSeq hps es]
    simp [nullableAll]

theorem epsilon_mem_alternatives (hps : ps.Proper) : ∀ es : List PegExpr,
    (∃ e ∈ es, .epsilon ∈ firstOf G ps e) ↔ ∃ e ∈ es, nullableOf G ps e = true
  | [] => by simp
  | e :: es => by
    simp only [List.exists_mem_cons_iff]
    rw [epsilon_mem_firstOf hps e, epsilon_mem_alternatives hps es]

end

theorem firstSeq_nodup {result : List FirstElement} {es : List PegExpr} (h : result.Nodup)
    (hepsilon : .epsilon ∉ result) : (firstSeq G ps result es).Nodup := by
  induction es generalizing result with
  | nil =>
    rw [firstSeq]
    exact List.nodup_append.mpr ⟨h, List.pairwise_singleton _ _, fun a ha b hb hab =>
      hepsilon (List.mem_singleton.mp hb ▸ hab ▸ ha)⟩
  | cons e es ih =>
    rw [firstSeq]
    split
    · refine ih (nodup_firstSetUnion h) fun hmem => ?_
      rw [mem_firstSetUnion] at hmem
      simp [hepsilon] at hmem
    · exact nodup_firstSetUnion h

theorem firstChoice_nodup {result : List FirstElement} {es : List PegExpr} (h : result.Nodup) :
    (firstChoice G ps result es).Nodup := by
  induction es generalizing result with
  | nil => exact h
  | cons e es ih =>
    rw [firstChoice]
    exact ih (nodup_firstSetUnion h)

/-- No element is twice in the set of an expression. -/
theorem nodup_firstOf (hps : ps.Proper) : ∀ e : PegExpr, (firstOf G ps e).Nodup
  | .ruleCall name _ => by
    rw [firstOf]
    split
    · exact List.pairwise_singleton _ _
    · split
      · exact List.pairwise_singleton _ _
      · cases hi : ps.named name with
        | none => exact List.nodup_nil
        | some i => exact (hps i (Infos.mem_of_named hi)).nodup
  | .sequence es => by
    rw [firstOf]
    exact firstSeq_nodup List.nodup_nil List.not_mem_nil
  | .choice es => by
    rw [firstOf]
    exact firstChoice_nodup List.nodup_nil
  | .star body | .optional body => by
    rw [firstOf]
    exact nodup_withEpsilon (nodup_firstOf hps body)
  | .plus body | .group body | .resolver _ body => by
    rw [firstOf]
    exact nodup_firstOf hps body
  | .literal _ | .anyExpr | .charsetRef _ | .tokenRef _ | .action _ | .and _ | .not _ | .charRange _ _ => by
    rw [firstOf]
    exact List.pairwise_singleton _ _

/-! ## What a set depends on -/

/-- The two tables have the same entry for every production that is called among `names`. -/
def AgreeOn (G : Grammar) (ps ps' : Infos) (names : List String) : Prop :=
  ∀ name ∈ names, G.isCharsetName name = false → G.isTokenName name = false → ps.named name = ps'.named name

theorem AgreeOn.mono {ps' : Infos} {names names' : List String} (h : AgreeOn G ps ps' names) (hsub : names' ⊆ names) :
    AgreeOn G ps ps' names' := fun name hname => h name (hsub hname)

mutual

/-- The set of an expression depends on the entries of the productions it calls. -/
theorem firstOf_congr {ps' : Infos} : ∀ e : PegExpr, AgreeOn G ps ps' (calledNames e) →
    firstOf G ps e = firstOf G ps' e ∧ nullableOf G ps e = nullableOf G ps' e
  | .ruleCall name _, h => by
    rw [firstOf, firstOf, nullableOf, nullableOf]
    cases hc : G.isCharsetName name with
    | true => simp
    | false =>
      cases ht : G.isTokenName name with
      | true => simp
      | false => simp [h name (List.mem_singleton.mpr rfl) hc ht]
  | .sequence es, h => by
    rw [firstOf, firstOf, nullableOf, nullableOf]
    exact ⟨(firstSeq_congr es h []).1, (firstSeq_congr es h []).2⟩
  | .choice es, h => by
    rw [firstOf, firstOf, nullableOf, nullableOf]
    exact ⟨(firstChoice_congr es h []).1, (firstChoice_congr es h []).2⟩
  | .star body, h | .optional body, h => by
    rw [firstOf, firstOf, nullableOf, nullableOf, (firstOf_congr body h).1]
    exact ⟨rfl, rfl⟩
  | .plus body, h | .group body, h | .resolver _ body, h => by
    rw [firstOf, firstOf, nullableOf, nullableOf]
    exact firstOf_congr body h
  | .literal _, _ | .anyExpr, _ | .charsetRef _, _ | .tokenRef _, _ | .action _, _ | .and _, _ | .not _, _
  | .charRange _ _, _ => by
    rw [firstOf, firstOf, nullableOf, nullableOf]
    exact ⟨rfl, rfl⟩

theorem firstSeq_congr {ps' : Infos} : ∀ es : List PegExpr, AgreeOn G ps ps' (calledNamesAll es) → ∀ result,
    firstSeq G ps result es = firstSeq G ps' result es ∧ nullableAll G ps es = nullableAll G ps' es
  | [], _, _ => ⟨rfl, rfl⟩
  | e :: es, h, result => by
    have he := firstOf_congr e (h.mono (List.subset_append_left _ _))
    have hes := firstSeq_congr es (h.mono (List.subset_append_right _ _))
    rw [firstSeq, firstSeq, nullableAll, nullableAll, he.1, he.2, (hes []).2, (hes _).1]
    exact ⟨rfl, rfl⟩

theorem firstChoice_congr {ps' : Infos} : ∀ es : List PegExpr, AgreeOn G ps ps' (calledNamesAll es) → ∀ result,
    firstChoice G ps result es = firstChoice G ps' result es ∧ nullableAny G ps es = nullableAny G ps' es
  | [], _, _ => ⟨rfl, rfl⟩
  | e :: es, h, result => by
    have he := firstOf_congr e (h.mono (List.subset_append_left _ _))
    have hes := firstChoice_congr es (h.mono (List.subset_append_right _ _))
    rw [firstChoice, firstChoice, nullableAny, nullableAny, he.1, he.2, (hes []).2, (hes _).1]
    exact ⟨rfl, rfl⟩

end

/-- Every entry of the first table is in the second with at least the same elements. -/
def Infos.Below (ps ps' : Infos) : Prop :=
  ∀ name i, ps.named name = some i → ∃ i', ps'.named name = some i' ∧ i.firstSet ⊆ i'.firstSet

mutual

/-- The set of an expression grows with the entries. -/
theorem firstOf_mono {ps' : Infos} (hps : ps.Proper) (hps' : ps'.Proper) (hle : ps.Below ps') :
    ∀ e : PegExpr, firstOf G ps e ⊆ firstOf G ps' e
  | .ruleCall name _ => by
    rw [firstOf, firstOf]
    split
    · exact List.Subset.refl _
    · split
      · exact List.Subset.refl _
      · cases hi : ps.named name with
        | none => exact List.nil_subset _
        | some i =>
          obtain ⟨i', hi', hsub⟩ := hle name i hi
          rw [hi']
          exact hsub
  | .sequence es => by
    rw [firstOf, firstOf]
    exact firstSeq_mono hps hps' hle es
  | .choice es => by
    rw [firstOf, firstOf]
    intro y hy
    rw [mem_firstChoice] at hy ⊢
    obtain h | ⟨e, he, hy⟩ := hy
    · exact absurd h List.not_mem_nil
    · exact .inr (firstChoice_mono hps hps' hle es y ⟨e, he, hy⟩)
  | .star body | .optional body => by
    rw [firstOf, firstOf]
    intro y hy
    rw [mem_withEpsilon] at hy ⊢
    exact hy.imp_left fun h => firstOf_mono hps hps' hle body h
  | .plus body | .group body | .resolver _ body => by
    rw [firstOf, firstOf]
    exact firstOf_mono hps hps' hle body
  | .literal _ | .anyExpr | .charsetRef _ | .tokenRef _ | .action _ | .and _ | .not _ | .charRange _ _ => by
    rw [firstOf, firstOf]
    exact List.Subset.refl _

theorem firstSeq_mono {ps' : Infos} (hps : ps.Proper) (hps' : ps'.Proper) (hle : ps.Below ps') :
    ∀ es : List PegExpr, firstSeq G ps [] es ⊆ firstSeq G ps' [] es
  | [] => List.Subset.refl _
  | e :: es => fun y hy => by
    have he := firstOf_mono hps hps' hle e
    rw [mem_firstSeq_cons] at hy ⊢
    obtain ⟨hy, hne⟩ | ⟨hnull, hy⟩ := hy
    · exact .inl ⟨he hy, hne⟩
    · rw [← epsilon_mem_firstOf hps] at hnull
      exact .inr ⟨(epsilon_mem_firstOf hps' e).mp (he hnull), firstSeq_mono hps hps' hle es hy⟩

theorem firstChoice_mono {ps' : Infos} (hps : ps.Proper) (hps' : ps'.Proper) (hle : ps.Below ps') :
    ∀ es : List PegExpr, ∀ y, (∃ e ∈ es, y ∈ firstOf G ps e) → ∃ e ∈ es, y ∈ firstOf G ps' e
  | [], _, ⟨_, hmem, _⟩ => absurd hmem List.not_mem_nil
  | e :: es, y, h => by
    rw [List.exists_mem_cons_iff] at h ⊢
    exact h.imp (fun h => firstOf_mono hps hps' hle e h) (firstChoice_mono hps hps' hle es y)

end

/-! ## The elements there can be -/

mutual

/-- What an expression puts into sets by itself. -/
def elements : PegExpr → List FirstElement
  | .literal value => [.literal value]
  | .charsetRef name => [.charset name]
  | .tokenRef name => [.token name]
  | .ruleCall name _ => [.charset name, .token name]
  | .anyExpr => [.any]
  | .sequence es | .choice es => elementsAll es
  | .star body | .plus body | .optional body | .group body | .resolver _ body => elements body
  | .action _ | .and _ | .not _ | .charRange _ _ => []

def elementsAll : List PegExpr → List FirstElement
  | [] => []
  | e :: es => elements e ++ elementsAll es

end

mutual

theorem firstOf_subset {U : List FirstElement} (hU : .epsilon ∈ U) (hps : ∀ i ∈ ps, i.firstSet ⊆ U) :
    ∀ e : PegExpr, elements e ⊆ U → firstOf G ps e ⊆ U
  | .ruleCall name _, h => by
    rw [firstOf]
    split
    · exact List.cons_subset.mpr ⟨h (by simp [elements]), List.nil_subset _⟩
    · split
      · exact List.cons_subset.mpr ⟨h (by simp [elements]), List.nil_subset _⟩
      · cases hi : ps.named name with
        | none => exact List.nil_subset _
        | some i => exact hps i (Infos.mem_of_named hi)
  | .sequence es, h => by
    rw [firstOf]
    exact firstSeq_subset hU hps es h
  | .choice es, h => by
    rw [firstOf]
    intro y hy
    rw [mem_firstChoice] at hy
    obtain hy | hy := hy
    · exact absurd hy List.not_mem_nil
    · exact firstChoice_subset hU hps es h y hy
  | .star body, h | .optional body, h => by
    rw [firstOf]
    intro y hy
    rw [mem_withEpsilon] at hy
    exact hy.elim (fun hy => firstOf_subset hU hps body h hy) fun hy => hy ▸ hU
  | .plus body, h | .group body, h | .resolver _ body, h => by
    rw [firstOf]
    exact firstOf_subset hU hps body h
  | .literal _, h | .anyExpr, h | .charsetRef _, h | .tokenRef _, h => by
    rw [firstOf]
    exact h
  | .action _, _ | .and _, _ | .not _, _ | .charRange _ _, _ => by
    rw [firstOf]
    exact List.cons_subset.mpr ⟨hU, List.nil_subset _⟩

theorem firstSeq_subset {U : List FirstElement} (hU : .epsilon ∈ U) (hps : ∀ i ∈ ps, i.firstSet ⊆ U) :
    ∀ es : List PegExpr, elementsAll es ⊆ U → firstSeq G ps [] es ⊆ U
  | [], _ => List.cons_subset.mpr ⟨hU, List.nil_subset _⟩
  | e :: es, h => fun y hy => by
    rw [elementsAll, List.append_subset] at h
    rw [mem_firstSeq_cons] at hy
    obtain ⟨hy, -⟩ | ⟨-, hy⟩ := hy
    · exact firstOf_subset hU hps e h.1 hy
    · exact firstSeq_subset hU hps es h.2 hy

theorem firstChoice_subset {U : List FirstElement} (hU : .epsilon ∈ U) (hps : ∀ i ∈ ps, i.firstSet ⊆ U) :
    ∀ es : List PegExpr, elementsAll es ⊆ U → ∀ y, (∃ e ∈ es, y ∈ firstOf G ps e) → y ∈ U
  | [], _, _, hy => by simp at hy
  | e :: es, h, y, hy => by
    rw [elementsAll, List.append_subset] at h
    rw [List.exists_mem_cons_iff] at hy
    exact hy.elim (fun hy => firstOf_subset hU hps e h.1 hy) (firstChoice_subset hU hps es h.2 y)

end

end Bbq.Peg
