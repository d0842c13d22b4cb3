import Bbq.Crt.Leaves
import Mathlib.Data.List.Pairwise

/-!
# Lazy expansion

What `crt/bbq_htree.h` says of the shape of a tree.

* `Forked`: there are two keys below every interior node. `insertAt_forked` and `deleteAt_forked` keep it.
* **`places_shallowest`**: then each leaf is at the shallowest depth that tells its key from the others.
* **`leaves_sorted`**: the leaves stand in the order of their keys.
-/

namespace Bbq.Crt

open HNode

variable {V : Type} {t t' : HNode V} {children : Fin 16 → HNode V} {key : UInt64} {level : Nat}

namespace HNode

/-- Two keys are in the tree. -/
def Branches (t : HNode V) : Prop := ∃ p ∈ leaves t, ∃ q ∈ leaves t, p.1 ≠ q.1

/-- Two keys are below every interior node. -/
def Forked : HNode V → Prop
  | null | leaf _ _ => True
  | interior children => Branches (interior children) ∧ ∀ i, Forked (children i)

/-- The keys of the leaves, each with the depth of its leaf. -/
def places : HNode V → Nat → List (UInt64 × Nat)
  | null, _ => []
  | leaf key _, depth => [(key, depth)]
  | interior children, depth => (List.finRange 16).flatMap fun i => places (children i) (depth + 1)

/-- No interior node has fewer than two leaves beneath it. -/
def TwoBelow : HNode V → Prop
  | null | leaf _ _ => True
  | interior children => 2 ≤ (leaves (interior children)).length ∧ ∀ i, TwoBelow (children i)

end HNode

/-- The first `depth` nibbles tell `key` from every other of `keys`. -/
def Distinguishes (keys : List UInt64) (key : UInt64) (depth : Nat) : Prop :=
  ∀ k ∈ keys, k ≠ key → ∃ l < depth, nibble k l ≠ nibble key l

theorem HNode.Branches.mono (h : Branches t) (hkeys : ∀ p ∈ leaves t, ∃ v, (p.1, v) ∈ leaves t') : Branches t' := by
  obtain ⟨p, hp, q, hq, hne⟩ := h
  obtain ⟨v, hv⟩ := hkeys p hp
  obtain ⟨w, hw⟩ := hkeys q hq
  exact ⟨_, hv, _, hw, hne⟩

theorem HNode.Branches.child {i : Fin 16} (h : Branches (children i)) : Branches (interior children) :=
  h.mono fun p hp => ⟨p.2, mem_leaves_inner.mpr ⟨i, hp⟩⟩

theorem HNode.Forked.nonempty (h : Forked t) (hne : t ≠ null) : ∃ p, p ∈ leaves t := by
  cases t with
  | null => exact absurd rfl hne
  | leaf k v => exact ⟨_, List.mem_singleton_self _⟩
  | interior children =>
    obtain ⟨p, hp, -⟩ := h.1
    exact ⟨p, hp⟩

theorem HNode.Forked.twoBelow (h : Forked t) : TwoBelow t := by
  induction t with
  | null => trivial
  | leaf k v => trivial
  | interior children ih =>
    refine ⟨?_, fun i => ih i (h.2 i)⟩
    obtain ⟨p, hp, q, hq, hne⟩ := h.1
    have hsub : [p, q] ⊆ leaves (interior children) := by
      intro x hx
      rcases List.mem_cons.mp hx with rfl | hx
      · exact hp
      · rw [List.mem_singleton.mp hx]
        exact hq
    have hnodup : [p, q].Nodup := by
      refine List.nodup_cons.mpr ⟨fun hpq => hne ?_, List.nodup_singleton q⟩
      rw [List.mem_singleton.mp hpq]
    exact (hnodup.subperm hsub).length_le

/-! ## Depths -/

theorem places_key {depth : Nat} {x : UInt64 × Nat} (h : x ∈ places t depth) : ∃ v, (x.1, v) ∈ leaves t := by
  induction t generalizing depth with
  | null => cases h
  | leaf k v =>
    obtain rfl := List.mem_singleton.mp h
    exact ⟨v, List.mem_singleton_self _⟩
  | interior children ih =>
    obtain ⟨i, -, hi⟩ := List.mem_flatMap.mp h
    obtain ⟨v, hv⟩ := ih i hi
    exact ⟨v, mem_leaves_inner.mpr ⟨i, hv⟩⟩

/-- A leaf below `level` at `depth`: the nibbles from `level` to `depth` tell its key apart, and one fewer do not. -/
theorem places_spec (hwf : Wf t level) (hf : Forked t) (hlevel : level ≤ nibbles) {depth : Nat}
    (h : (key, depth) ∈ places t level) :
    level ≤ depth ∧ depth ≤ nibbles ∧
      (∀ p ∈ leaves t, p.1 ≠ key → ∃ l, level ≤ l ∧ l < depth ∧ nibble p.1 l ≠ nibble key l) ∧
      (level < depth → ∃ p ∈ leaves t, p.1 ≠ key ∧ ∀ l, level ≤ l → l + 1 < depth → nibble p.1 l = nibble key l) := by
  induction t generalizing level with
  | null => cases h
  | leaf k v =>
    obtain ⟨rfl, rfl⟩ := Prod.mk.inj (List.mem_singleton.mp h)
    refine ⟨le_refl _, hlevel, fun p hp hne => absurd ?_ hne, fun hlt => absurd hlt (lt_irrefl _)⟩
    rw [List.mem_singleton.mp hp]
  | interior children ih =>
    obtain ⟨i, -, hi⟩ := List.mem_flatMap.mp h
    obtain ⟨hle, hdepth, htold, hshallow⟩ := ih i (hwf.2 i).1 (hf.2 i) hwf.1 hi
    obtain ⟨v, hv⟩ := places_key hi
    have hkey : nibble key level = i := (hwf.2 i).2 _ hv
    refine ⟨by omega, hdepth, fun p hp hne => ?_, fun _ => ?_⟩
    · obtain ⟨j, hj⟩ := mem_leaves_inner.mp hp
      by_cases hij : j = i
      · subst hij
        obtain ⟨l, hl, hld, hdiff⟩ := htold p hj hne
        exact ⟨l, by omega, hld, hdiff⟩
      · refine ⟨level, le_refl _, by omega, ?_⟩
        rw [hkey, (hwf.2 j).2 p hj]
        exact hij
    · rcases Nat.lt_or_eq_of_le hle with hlt | heq
      · obtain ⟨p, hp, hne, hsame⟩ := hshallow hlt
        refine ⟨p, mem_leaves_inner.mpr ⟨i, hp⟩, hne, fun l hl hld => ?_⟩
        rcases Nat.lt_or_eq_of_le hl with hl | rfl
        · exact hsame l hl hld
        · rw [hkey, (hwf.2 i).2 p hp]
      · obtain ⟨p, hp, q, hq, hpq⟩ := hf.1
        by_cases hpk : p.1 = key
        · exact ⟨q, hq, fun hqk => hpq (hpk.trans hqk.symm), fun l hl hld => absurd hld (by omega)⟩
        · exact ⟨p, hp, hpk, fun l hl hld => absurd hld (by omega)⟩

/-- **Every leaf is at the shallowest depth that tells its key from the others.** -/
theorem places_shallowest (hwf : Wf t 0) (hf : Forked t) {depth : Nat} (h : (key, depth) ∈ places t 0) :
    depth ≤ nibbles ∧ Distinguishes ((leaves t).map Prod.fst) key depth ∧
      ∀ d < depth, ¬Distinguishes ((leaves t).map Prod.fst) key d := by
  obtain ⟨-, hdepth, htold, hshallow⟩ := places_spec hwf hf (Nat.zero_le _) h
  refine ⟨hdepth, fun k hk hne => ?_, fun d hd hdist => ?_⟩
  · obtain ⟨p, hp, rfl⟩ := List.mem_map.mp hk
    obtain ⟨l, -, hl, hdiff⟩ := htold p hp hne
    exact ⟨l, hl, hdiff⟩
  · obtain ⟨p, hp, hne, hsame⟩ := hshallow (by omega)
    obtain ⟨l, hl, hdiff⟩ := hdist p.1 (List.mem_map_of_mem hp) hne
    exact hdiff (hsame l (Nat.zero_le l) (by omega))

/-! ## Order -/

/-- **The leaves stand in the order of their keys.** -/
theorem leaves_sorted (hwf : Wf t level) (hlevel : level ≤ nibbles)
    (hsame : ∀ p ∈ leaves t, ∀ q ∈ leaves t, ∀ l < level, nibble p.1 l = nibble q.1 l) :
    (leaves t).Pairwise fun p q => p.1 < q.1 := by
  induction t generalizing level with
  | null => exact List.Pairwise.nil
  | leaf k v => exact List.pairwise_singleton _ _
  | interior children ih =>
    rw [leaves, List.pairwise_flatMap]
    refine ⟨fun i _ => ih i (hwf.2 i).1 hwf.1 fun p hp q hq l hl => ?_,
      (List.pairwise_lt_finRange 16).imp fun {i j} hij p hp q hq => ?_⟩
    · rcases Nat.lt_succ_iff_lt_or_eq.mp hl with hl | rfl
      · exact hsame p (mem_leaves_inner.mpr ⟨i, hp⟩) q (mem_leaves_inner.mpr ⟨i, hq⟩) l hl
      · rw [(hwf.2 i).2 p hp, (hwf.2 i).2 q hq]
    · refine lt_of_nibble hwf.1 (hsame p (mem_leaves_inner.mpr ⟨i, hp⟩) q (mem_leaves_inner.mpr ⟨j, hq⟩)) ?_
      rw [(hwf.2 i).2 p hp, (hwf.2 j).2 q hq]
      exact hij

/-! ## What the operations keep -/

theorem forked_nest {fork : HNode V} (hf : Forked fork) (hb : Branches fork) (n level : Nat) :
    Forked (nest key fork n level) := by
  induction n generalizing level with
  | zero => exact hf
  | succ n ih =>
    refine ⟨hb.mono fun p hp => ⟨p.2, ?_⟩, fun i => ?_⟩
    · exact mem_leaves_update.mpr (.inl ((leaves_nest fork n (level + 1)).mpr hp))
    · by_cases hi : i = nibble key level
      · rw [hi, Function.update_self]
        exact ih (level + 1)
      · rw [Function.update_of_ne hi]
        trivial

theorem splitLeaf_forked {a : Alloc} {k : UInt64} (v value : V) (hne : k ≠ key) (hlevel : level ≤ nibbles)
    (hunder : ∀ l < level, nibble k l = nibble key l) :
    match (splitLeaf a k v level key value).1 with
    | some t => Forked t
    | none => True := by
  obtain ⟨-, -, hdiff, -⟩ := divergence_spec hne (Nat.le_add_left nibbles level) hunder hlevel
  unfold splitLeaf
  generalize divergence k key nibbles level = d at hdiff
  dsimp only
  generalize a.requests (d - level + 2) = r
  obtain ⟨ok, b⟩ := r
  cases ok with
  | false => trivial
  | true =>
    have hbranches : Branches (interior (Function.update (Function.update (fun _ => null) (nibble k d) (leaf k v))
        (nibble key d) (leaf key value))) := by
      refine ⟨(key, value), mem_leaves_update.mpr (.inl (List.mem_singleton_self _)), (k, v), ?_, hne.symm⟩
      refine mem_leaves_update.mpr (.inr ⟨nibble k d, hdiff, ?_⟩)
      rw [Function.update_self]
      exact List.mem_singleton_self _
    have hchildren : ∀ i, Forked (Function.update (Function.update (fun _ => null) (nibble k d) (leaf k v))
        (nibble key d) (leaf key value) i) := by
      intro i
      by_cases hi : i = nibble key d
      · rw [hi, Function.update_self]
        trivial
      · rw [Function.update_of_ne hi]
        by_cases hk : i = nibble k d
        · rw [hk, Function.update_self]
          trivial
        · rw [Function.update_of_ne hk]
          trivial
    refine forked_nest ?_ hbranches _ _
    exact ⟨hbranches, hchildren⟩

/-- **Insertion** forks where two keys part. -/
theorem insertAt_forked (a : Alloc) (key : UInt64) (value : V) (hwf : Wf t level) (hf : Forked t)
    (hlevel : level ≤ nibbles) (hunder : Under key level t) :
    match (insertAt a key value t level).1 with
    | .ok (t', _) => Forked t'
    | .error _ => True := by
  induction t generalizing level with
  | null =>
    unfold insertAt
    generalize a.request = r
    obtain ⟨ok, b⟩ := r
    cases ok with
    | false => trivial
    | true => trivial
  | leaf k v =>
    unfold insertAt
    by_cases hk : k = key
    · rw [if_pos hk]
      trivial
    · have hsplit := splitLeaf_forked (a := a) v value hk hlevel (hunder (k, v) (List.mem_singleton_self _))
      rw [if_neg hk]
      generalize splitLeaf a k v level key value = r at hsplit
      obtain ⟨t, b⟩ := r
      cases t with
      | none => trivial
      | some t => exact hsplit
  | interior children ih =>
    have hspec := (insertAt_spec a key value hwf hlevel hunder).2
    have hchild := ih (nibble key level) (hwf.2 _).1 (hf.2 _) hwf.1 (hunder.child hwf)
    unfold insertAt at hspec ⊢
    rw [if_neg (Nat.not_le.mpr hwf.1)] at hspec ⊢
    generalize insertAt a key value (children (nibble key level)) (level + 1) = r at hspec hchild
    obtain ⟨res, b⟩ := r
    cases res with
    | error fault => trivial
    | ok res =>
      obtain ⟨t', new⟩ := res
      refine ⟨hf.1.mono fun p hp => ?_, fun i => ?_⟩
      · by_cases hk : p.1 = key
        · exact ⟨value, (hspec.2 _).mpr (.inl ⟨hk, rfl⟩)⟩
        · exact ⟨p.2, (hspec.2 _).mpr (.inr ⟨hp, hk⟩)⟩
      · by_cases hi : i = nibble key level
        · rw [hi, Function.update_self]
          exact hchild
        · rw [Function.update_of_ne hi]
          exact hf.2 i

theorem collapse_forked (hwf : Wf (interior children) level) (hf : ∀ i, Forked (children i)) :
    Forked (collapse children).1 ∧ ((collapse children).2 = false → Branches (collapse children).1) := by
  have hthere : ∀ i, i ∈ ((List.finRange 16).filter fun i => !(children i).isNull) → children i ≠ null := by
    intro i hi hnull
    have hnot := (List.mem_filter.mp hi).2
    rw [hnull] at hnot
    cases hnot
  have hnodup : ((List.finRange 16).filter fun i => !(children i).isNull).Nodup := (List.nodup_finRange 16).filter _
  unfold collapse
  split
  · exact ⟨trivial, nofun⟩
  · next i hone =>
    split
    · exact ⟨hf i, nofun⟩
    · next hleaf =>
      have hbranches : Branches (interior children) := by
        refine Branches.child (i := i) ?_
        have hi := hthere i (by rw [hone]; exact List.mem_singleton_self i)
        have hfi := hf i
        generalize children i = child at hi hfi hleaf
        cases child with
        | null => exact absurd rfl hi
        | leaf k v => exact absurd rfl hleaf
        | interior inner => exact hfi.1
      exact ⟨⟨hbranches, hf⟩, fun _ => hbranches⟩
  · next i j more hmore =>
    have hbranches : Branches (interior children) := by
      rw [hmore] at hthere hnodup
      obtain ⟨p, hp⟩ := (hf i).nonempty (hthere i List.mem_cons_self)
      obtain ⟨q, hq⟩ := (hf j).nonempty (hthere j (List.mem_cons_of_mem _ List.mem_cons_self))
      refine ⟨p, mem_leaves_inner.mpr ⟨i, hp⟩, q, mem_leaves_inner.mpr ⟨j, hq⟩, fun hpq => ?_⟩
      have hij : i = j := by rw [← (hwf.2 i).2 p hp, ← (hwf.2 j).2 q hq, hpq]
      exact (List.nodup_cons.mp hnodup).1 (by rw [hij]; exact List.mem_cons_self)
    exact ⟨⟨hbranches, hf⟩, fun _ => hbranches⟩

/-- **Deletion** collapses as far as two keys are missing. -/
theorem deleteAt_forked (key : UInt64) (hwf : Wf t level) (hf : Forked t) :
    match deleteAt key t level with
    | some (t', goOn, _) => Forked t' ∧ (goOn = false → Branches t')
    | none => True := by
  induction t generalizing level with
  | null => trivial
  | leaf k v =>
    unfold deleteAt
    by_cases hk : k = key
    · rw [if_pos hk]
      exact ⟨trivial, fun h => by cases h⟩
    · rw [if_neg hk]
      trivial
  | interior children ih =>
    have hchild := ih (nibble key level) (hwf.2 _).1 (hf.2 _)
    have hspec := deleteAt_spec key (hwf.2 (nibble key level)).1
    unfold deleteAt
    rw [if_neg (Nat.not_le.mpr hwf.1)]
    generalize deleteAt key (children (nibble key level)) (level + 1) = res at hchild hspec
    rcases res with _ | ⟨t', goOn, v⟩
    · trivial
    · have hall : ∀ i, Forked (Function.update children (nibble key level) t' i) := by
        intro i
        by_cases hi : i = nibble key level
        · rw [hi, Function.update_self]
          exact hchild.1
        · rw [Function.update_of_ne hi]
          exact hf.2 i
      cases goOn with
      | false =>
        have hbranches : Branches (interior (Function.update children (nibble key level) t')) := by
          refine Branches.child (i := nibble key level) ?_
          rw [Function.update_self]
          exact hchild.2 rfl
        exact ⟨⟨hbranches, hall⟩, fun _ => hbranches⟩
      | true => exact collapse_forked (Puts.interior hwf hspec.1 hspec.2).1 hall

/-- A deletion returns what a search finds. -/
theorem deleteAt_value (key : UInt64) (hwf : Wf t level) :
    (deleteAt key t level).map (fun r => r.2.2) = findAt key t level := by
  induction t generalizing level with
  | null => rfl
  | leaf k v =>
    unfold deleteAt findAt
    split
    · rfl
    · rfl
  | interior children ih =>
    have hchild := ih (nibble key level) (hwf.2 _).1
    unfold deleteAt findAt
    rw [if_neg (Nat.not_le.mpr hwf.1), if_pos hwf.1, ← hchild]
    generalize deleteAt key (children (nibble key level)) (level + 1) = res
    rcases res with _ | ⟨t', goOn, v⟩
    · rfl
    · cases goOn with
      | false => rfl
      | true => rfl

end Bbq.Crt
