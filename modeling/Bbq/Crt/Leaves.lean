import Bbq.Crt.Htree
import Mathlib.Data.List.Nodup
import Mathlib.Logic.Function.Basic

/-!
# What a radix tree holds

* `leaves` are the keys of a tree with their values, and `Wf` says that each is where its nibbles lead.
* `Puts key x t t'`: `t'` holds what `t` does but for `key`, which has the value `x` in it.
* **`insertAt_spec`**, **`deleteAt_spec`**, **`overwriteAt_spec`**: each operation keeps `Wf` and `Puts` what it
  should, and an insertion that does not happen was refused.
-/

namespace Bbq.Crt

variable {V : Type}

namespace HNode

/-- The keys and their values. -/
def leaves : HNode V → List (UInt64 × V)
  | null => []
  | leaf key value => [(key, value)]
  | interior children => (List.finRange 16).flatMap fun i => leaves (children i)

/-- Below the child `i` of a node at `level`, the nibble of each key at `level` is `i`. -/
def Wf : HNode V → Nat → Prop
  | null, _ | leaf _ _, _ => True
  | .interior children, level =>
    level < nibbles ∧ ∀ i, Wf (children i) (level + 1) ∧ ∀ p ∈ leaves (children i), nibble p.1 level = i

end HNode

open HNode

variable {t t' : HNode V} {children : Fin 16 → HNode V} {key : UInt64} {level : Nat} {p : UInt64 × V} {x : Option V}

theorem mem_leaves_inner : p ∈ leaves (interior children) ↔ ∃ i, p ∈ leaves (children i) := by
  simp only [leaves, List.mem_flatMap, List.mem_finRange, true_and]

theorem mem_leaves_update {n : Fin 16} :
    p ∈ leaves (interior (Function.update children n t)) ↔ p ∈ leaves t ∨ ∃ i, i ≠ n ∧ p ∈ leaves (children i) := by
  rw [mem_leaves_inner]
  constructor
  · rintro ⟨i, hi⟩
    by_cases hin : i = n
    · subst hin
      rw [Function.update_self] at hi
      exact .inl hi
    · rw [Function.update_of_ne hin] at hi
      exact .inr ⟨i, hin, hi⟩
  · rintro (hp | ⟨i, hin, hi⟩)
    · exact ⟨n, by rw [Function.update_self]; exact hp⟩
    · exact ⟨i, by rw [Function.update_of_ne hin]; exact hi⟩

/-- A leaf of a child is where its key leads. -/
theorem mem_leaves_nibble (hwf : Wf (interior children) level) :
    p ∈ leaves (interior children) ↔ p ∈ leaves (children (nibble p.1 level)) := by
  rw [mem_leaves_inner]
  constructor
  · rintro ⟨i, hi⟩
    rw [(hwf.2 i).2 p hi]
    exact hi
  · exact fun hp => ⟨_, hp⟩

theorem wf_update (hwf : Wf (interior children) level) {n : Fin 16} (ht : Wf t (level + 1))
    (hkeys : ∀ p ∈ leaves t, nibble p.1 level = n) : Wf (interior (Function.update children n t)) level := by
  refine ⟨hwf.1, fun i => ?_⟩
  by_cases hin : i = n
  · subst hin
    rw [Function.update_self]
    exact ⟨ht, hkeys⟩
  · rw [Function.update_of_ne hin]
    exact hwf.2 i

/-- **A search finds what the tree holds.** -/
theorem findAt_iff (hwf : Wf t level) {v : V} : findAt key t level = some v ↔ (key, v) ∈ leaves t := by
  induction t generalizing level with
  | null => simp [findAt, leaves]
  | leaf k value =>
    simp only [findAt, leaves, List.mem_singleton, Prod.mk.injEq]
    split
    · next hk => simp [hk, eq_comm]
    · next hk => exact iff_of_false nofun fun h => hk h.1.symm
  | interior children ih =>
    rw [findAt, if_pos hwf.1, mem_leaves_nibble hwf]
    exact ih _ (hwf.2 _).1

theorem findAt_none (hwf : Wf t level) : findAt key t level = none ↔ ∀ v, (key, v) ∉ leaves t := by
  rw [Option.eq_none_iff_forall_ne_some]
  exact forall_congr' fun v => not_congr (findAt_iff hwf)

/-- No key has two leaves. -/
theorem nodup_leaves (hwf : Wf t level) : ((leaves t).map Prod.fst).Nodup := by
  induction t generalizing level with
  | null => exact List.nodup_nil
  | leaf k value => exact List.nodup_singleton k
  | interior children ih =>
    rw [leaves, List.map_flatMap, List.nodup_flatMap]
    refine ⟨fun i _ => ih i (hwf.2 i).1, (List.nodup_finRange 16).imp_of_mem ?_⟩
    intro i j _ _ hij
    rw [Function.onFun_apply, List.disjoint_left]
    intro k hi hj
    obtain ⟨p, hp, rfl⟩ := List.mem_map.mp hi
    obtain ⟨q, hq, hqk⟩ := List.mem_map.mp hj
    have hkey := (hwf.2 j).2 q hq
    rw [hqk] at hkey
    exact hij (((hwf.2 i).2 p hp).symm.trans hkey)

/-! ## A change at one key -/

/-- `t'` holds what `t` does, but for `key`. -/
def Puts (key : UInt64) (x : Option V) (t t' : HNode V) : Prop :=
  ∀ p, p ∈ leaves t' ↔ (p.1 = key ∧ x = some p.2) ∨ (p ∈ leaves t ∧ p.1 ≠ key)

/-- **What a search finds after a change.** -/
theorem Puts.findAt (h : Puts key x t t') (hwf : Wf t level) (hwf' : Wf t' level) (k : UInt64) :
    findAt k t' level = if k = key then x else findAt k t level := by
  refine Option.ext fun v => ?_
  rw [findAt_iff hwf', h (k, v)]
  split
  · next hk => simp [hk]
  · next hk => simp [hk, findAt_iff hwf]

/-- A change below a node. -/
theorem Puts.interior (hwf : Wf (interior children) level) (ht : Wf t (level + 1))
    (h : Puts key x (children (nibble key level)) t) :
    Wf (interior (Function.update children (nibble key level) t)) level ∧
      Puts key x (interior children) (interior (Function.update children (nibble key level) t)) := by
  refine ⟨wf_update hwf ht fun p hp => ?_, fun p => ?_⟩
  · rcases (h p).mp hp with ⟨hk, -⟩ | ⟨hp, -⟩
    · rw [hk]
    · exact (hwf.2 _).2 p hp
  · rw [mem_leaves_update, h p, mem_leaves_nibble hwf]
    constructor
    · rintro ((hk | ⟨hp, hk⟩) | ⟨i, hi, hp⟩)
      · exact .inl hk
      · rw [(hwf.2 _).2 p hp]
        exact .inr ⟨hp, hk⟩
      · have hnib := (hwf.2 i).2 p hp
        refine .inr ⟨by rwa [hnib], fun hk => hi ?_⟩
        rw [← hnib, hk]
    · rintro (hk | ⟨hp, hk⟩)
      · exact .inl (.inl hk)
      · by_cases hnib : nibble p.1 level = nibble key level
        · rw [hnib] at hp
          exact .inl (.inr ⟨hp, hk⟩)
        · exact .inr ⟨_, hnib, hp⟩

/-- The keys of the tree agree with `key` on the nibbles before `level`. -/
def Under (key : UInt64) (level : Nat) (t : HNode V) : Prop :=
  ∀ p ∈ leaves t, ∀ l < level, nibble p.1 l = nibble key l

theorem Under.child (hwf : Wf (interior children) level) (h : Under key level (interior children)) :
    Under key (level + 1) (children (nibble key level)) := by
  intro p hp l hl
  rcases Nat.lt_succ_iff_lt_or_eq.mp hl with hl | rfl
  · exact h p (mem_leaves_inner.mpr ⟨_, hp⟩) l hl
  · exact (hwf.2 _).2 p hp

theorem under_zero : Under key 0 t := fun _ _ _ hl => absurd hl (Nat.not_lt_zero _)

/-! ## Insertion -/

/-- One of the requests from `a` to `a'` was refused. -/
def Refused (a a' : Alloc) : Prop := ∃ n, a.asked ≤ n ∧ n < a'.asked ∧ a.grant n = false

/-- Allocators go on as they were. -/
def Alloc.Follows (a a' : Alloc) : Prop := a'.grant = a.grant ∧ a.asked ≤ a'.asked

theorem request_follows (a : Alloc) : a.Follows a.request.2 := ⟨rfl, Nat.le_succ _⟩

theorem request_refused {a : Alloc} (h : a.request.1 = false) : Refused a a.request.2 :=
  ⟨a.asked, le_refl _, Nat.lt_succ_self _, h⟩

theorem requests_spec (n : Nat) (a : Alloc) :
    a.Follows (a.requests n).2 ∧ ((a.requests n).1 = false → Refused a (a.requests n).2) := by
  induction n generalizing a with
  | zero => exact ⟨⟨rfl, le_refl _⟩, nofun⟩
  | succ n ih =>
    obtain ⟨hgrant, hasked⟩ := request_follows a
    unfold Alloc.requests
    generalize hr : a.request = r at hgrant hasked
    obtain ⟨ok, b⟩ := r
    cases ok with
    | true =>
      obtain ⟨hfollows, hrefused⟩ := ih b
      refine ⟨⟨hfollows.1.trans hgrant, Nat.le_trans hasked hfollows.2⟩, fun hno => ?_⟩
      obtain ⟨m, hlow, hhigh, hm⟩ := hrefused hno
      exact ⟨m, Nat.le_trans hasked hlow, hhigh, by rw [← hgrant]; exact hm⟩
    | false =>
      have hno := request_refused (a := a) (by rw [hr])
      rw [hr] at hno
      exact ⟨⟨hgrant, hasked⟩, fun _ => hno⟩

theorem three_spec (a : Alloc) : a.Follows a.three.2 ∧ (a.three.1 = false → Refused a a.three.2) := by
  refine ⟨⟨rfl, Nat.le_add_right a.asked 3⟩, fun hno => ?_⟩
  have hnot : (a.grant a.asked && a.grant (a.asked + 1) && a.grant (a.asked + 2)) = false := hno
  rw [Bool.and_eq_false_iff, Bool.and_eq_false_iff] at hnot
  rcases hnot with (hno | hno) | hno
  · exact ⟨a.asked, le_refl _, Nat.lt_add_of_pos_right (by decide : 0 < 3), hno⟩
  · exact ⟨a.asked + 1, Nat.le_add_right _ _, Nat.add_lt_add_left (by decide : 1 < 3) _, hno⟩
  · exact ⟨a.asked + 2, Nat.le_add_right _ _, Nat.add_lt_add_left (by decide : 2 < 3) _, hno⟩

theorem leaves_nest (fork : HNode V) (n level : Nat) : p ∈ leaves (nest key fork n level) ↔ p ∈ leaves fork := by
  induction n generalizing level with
  | zero => rfl
  | succ n ih =>
    rw [nest, mem_leaves_update, ih]
    simp [leaves]

theorem wf_nest {fork : HNode V} {n level : Nat} (hfork : Wf fork (level + n)) (hdepth : level + n < nibbles)
    (hkeys : Under key (level + n) fork) : Wf (nest key fork n level) level := by
  induction n generalizing level with
  | zero => exact hfork
  | succ n ih =>
    have hshift : level + (n + 1) = level + 1 + n := by omega
    rw [hshift] at hfork hdepth hkeys
    have hnull : Wf (interior fun _ => (null : HNode V)) level := ⟨by omega, fun i => ⟨trivial, nofun⟩⟩
    refine wf_update hnull (ih hfork hdepth hkeys) fun p hp => ?_
    rw [leaves_nest] at hp
    exact hkeys p hp level (by omega)

theorem splitLeaf_spec {a : Alloc} {k : UInt64} (v value : V) (hne : k ≠ key) (hlevel : level ≤ nibbles)
    (hunder : ∀ l < level, nibble k l = nibble key l) :
    a.Follows (splitLeaf a k v level key value).2 ∧
      match (splitLeaf a k v level key value).1 with
      | some t => Wf t level ∧ Puts key (some value) (leaf k v) t
      | none => Refused a (splitLeaf a k v level key value).2 := by
  obtain ⟨hle, hlt, hdiff, hagree⟩ := divergence_spec hne (Nat.le_add_left nibbles level) hunder hlevel
  unfold splitLeaf
  generalize divergence k key nibbles level = d at hle hlt hdiff hagree
  obtain ⟨hfollows, hrefused⟩ := requests_spec (d - level + 2) a
  dsimp only
  generalize a.requests (d - level + 2) = r at hfollows hrefused
  obtain ⟨ok, b⟩ := r
  cases ok with
  | false => exact ⟨hfollows, hrefused rfl⟩
  | true =>
    have hnull : Wf (interior fun _ => (null : HNode V)) d := ⟨hlt, fun i => ⟨trivial, nofun⟩⟩
    have hold : Wf (interior (Function.update (fun _ => null) (nibble k d) (leaf k v))) d :=
      wf_update hnull trivial fun p hp => by rw [List.mem_singleton.mp hp]
    have hfork : Wf (interior (Function.update (Function.update (fun _ => null) (nibble k d) (leaf k v))
        (nibble key d) (leaf key value))) d :=
      wf_update hold trivial fun p hp => by rw [List.mem_singleton.mp hp]
    have hmem : ∀ p, p ∈ leaves (interior (Function.update (Function.update (fun _ => null) (nibble k d) (leaf k v))
        (nibble key d) (leaf key value))) ↔ p = (key, value) ∨ p = (k, v) := by
      intro p
      rw [mem_leaves_update]
      constructor
      · rintro (hp | ⟨i, hi, hp⟩)
        · exact .inl (List.mem_singleton.mp hp)
        · have hp := mem_leaves_update.mp (mem_leaves_inner.mpr ⟨i, hp⟩)
          rcases hp with hp | ⟨_, _, hp⟩
          · exact .inr (List.mem_singleton.mp hp)
          · exact absurd hp List.not_mem_nil
      · rintro (rfl | rfl)
        · exact .inl (List.mem_singleton_self _)
        · exact .inr ⟨nibble k d, hdiff, by rw [Function.update_self]; exact List.mem_singleton_self _⟩
    have hsum : level + (d - level) = d := by omega
    refine ⟨hfollows, wf_nest (by rw [hsum]; exact hfork) (by rw [hsum]; exact hlt) ?_, fun p => ?_⟩
    · rw [hsum]
      intro p hp l hl
      rcases (hmem p).mp hp with rfl | rfl
      · rfl
      · exact hagree l hl
    · rw [leaves_nest, hmem, leaves, List.mem_singleton]
      obtain ⟨k', v'⟩ := p
      simp only [Prod.mk.injEq, Option.some.injEq]
      constructor
      · rintro (⟨rfl, rfl⟩ | ⟨rfl, rfl⟩)
        · exact .inl ⟨rfl, rfl⟩
        · exact .inr ⟨⟨rfl, rfl⟩, hne⟩
      · rintro (⟨rfl, rfl⟩ | ⟨⟨rfl, rfl⟩, -⟩)
        · exact .inl ⟨rfl, rfl⟩
        · exact .inr ⟨rfl, rfl⟩

/-- **Insertion**: the key has the value then, or a request was refused. -/
theorem insertAt_spec (a : Alloc) (key : UInt64) (value : V) (hwf : Wf t level) (hlevel : level ≤ nibbles)
    (hunder : Under key level t) :
    a.Follows (insertAt a key value t level).2 ∧
      match (insertAt a key value t level).1 with
      | .ok (t', _) => Wf t' level ∧ Puts key (some value) t t'
      | .error _ => Refused a (insertAt a key value t level).2 := by
  induction t generalizing level with
  | null =>
    have hfollows := request_follows a
    have hrefused := request_refused (a := a)
    unfold insertAt
    generalize a.request = r at hfollows hrefused
    obtain ⟨ok, b⟩ := r
    cases ok with
    | false => exact ⟨hfollows, hrefused rfl⟩
    | true =>
      refine ⟨hfollows, trivial, fun p => ?_⟩
      obtain ⟨k, v⟩ := p
      simp [leaves, eq_comm]
  | leaf k v =>
    unfold insertAt
    split
    · next hk =>
      refine ⟨⟨rfl, le_refl _⟩, trivial, fun p => ?_⟩
      obtain ⟨k', v'⟩ := p
      simp only [leaves, List.mem_singleton, Prod.mk.injEq, Option.some.injEq, ← hk]
      constructor
      · rintro ⟨rfl, rfl⟩
        exact .inl ⟨rfl, rfl⟩
      · rintro (⟨rfl, rfl⟩ | ⟨⟨rfl, -⟩, hne⟩)
        · exact ⟨rfl, rfl⟩
        · exact absurd rfl hne
    · next hk =>
      obtain ⟨hfollows, hres⟩ := splitLeaf_spec (a := a) v value hk hlevel
        (hunder (k, v) (List.mem_singleton_self _))
      generalize splitLeaf a k v level key value = r at hfollows hres
      obtain ⟨t, b⟩ := r
      cases t with
      | none => exact ⟨hfollows, hres⟩
      | some t => exact ⟨hfollows, hres⟩
  | interior children ih =>
    unfold insertAt
    rw [if_neg (Nat.not_le.mpr hwf.1)]
    obtain ⟨hfollows, hres⟩ := ih (nibble key level) (hwf.2 _).1 hwf.1 (hunder.child hwf)
    generalize insertAt a key value (children (nibble key level)) (level + 1) = r at hfollows hres
    obtain ⟨res, b⟩ := r
    cases res with
    | error fault => exact ⟨hfollows, hres⟩
    | ok res => exact ⟨hfollows, Puts.interior hwf hres.1 hres.2⟩

/-- A key that is there keeps its leaf: nothing is requested. -/
theorem insertAt_present (a : Alloc) (value : V) {v : V} (hwf : Wf t level) (hmem : (key, v) ∈ leaves t) :
    ∃ t', insertAt a key value t level = (.ok (t', false), a) := by
  induction t generalizing level with
  | null => exact absurd hmem List.not_mem_nil
  | leaf k w =>
    obtain ⟨rfl, rfl⟩ := Prod.mk.inj (List.mem_singleton.mp hmem)
    exact ⟨_, by rw [insertAt, if_pos rfl]⟩
  | interior children ih =>
    obtain ⟨t', ht'⟩ := ih (nibble key level) (hwf.2 _).1 ((mem_leaves_nibble hwf).mp hmem)
    exact ⟨_, by rw [insertAt, if_neg (Nat.not_le.mpr hwf.1), ht']⟩

/-! ## Deletion -/

theorem isNull_iff : t.isNull = true ↔ t = null := by
  cases t <;> simp [isNull]

theorem collapse_spec (hwf : Wf (interior children) level) :
    Wf (collapse children).1 level ∧ ∀ p, p ∈ leaves (collapse children).1 ↔ p ∈ leaves (interior children) := by
  have hchild : ∀ i, i ∈ ((List.finRange 16).filter fun i => !(children i).isNull) ↔ children i ≠ null := by
    intro i
    rw [List.mem_filter, Bool.not_eq_true', ← Bool.not_eq_true, isNull_iff]
    simp only [List.mem_finRange, true_and, ne_eq]
  unfold collapse
  split
  · next hnone =>
    refine ⟨trivial, fun p => ?_⟩
    rw [mem_leaves_inner]
    refine ⟨fun hp => absurd hp List.not_mem_nil, fun ⟨i, hi⟩ => ?_⟩
    by_cases hnull : children i = null
    · rw [hnull] at hi
      exact absurd hi List.not_mem_nil
    · have hin := (hchild i).mpr hnull
      rw [hnone] at hin
      exact absurd hin List.not_mem_nil
  · next i hone =>
    split
    · next hleaf =>
      refine ⟨?_, fun p => ?_⟩
      · generalize children i = child at hleaf
        cases child with
        | leaf k v => trivial
        | null | interior _ => exact absurd hleaf Bool.false_ne_true
      · rw [mem_leaves_inner]
        refine ⟨fun hp => ⟨i, hp⟩, fun ⟨j, hj⟩ => ?_⟩
        by_cases hnull : children j = null
        · rw [hnull] at hj
          exact absurd hj List.not_mem_nil
        · have hin := (hchild j).mpr hnull
          rw [hone, List.mem_singleton] at hin
          rwa [← hin]
    · exact ⟨hwf, fun _ => Iff.rfl⟩
  · exact ⟨hwf, fun _ => Iff.rfl⟩

/-- **Deletion**: the key is gone, or was not there. -/
theorem deleteAt_spec (key : UInt64) (hwf : Wf t level) :
    match deleteAt key t level with
    | some (t', _, _) => Wf t' level ∧ Puts key none t t'
    | none => ∀ v, (key, v) ∉ leaves t := by
  induction t generalizing level with
  | null => exact fun _ => List.not_mem_nil
  | leaf k v =>
    unfold deleteAt
    split
    · next heq =>
      split at heq
      · next hk =>
        obtain ⟨rfl, -⟩ := Prod.mk.inj (Option.some.inj heq)
        refine ⟨trivial, fun p => ?_⟩
        simp only [leaves, List.mem_singleton, List.not_mem_nil, reduceCtorEq, and_false, false_or, false_iff]
        rintro ⟨rfl, hne⟩
        exact hne hk
      · exact absurd heq nofun
    · next heq =>
      split at heq
      · exact absurd heq nofun
      · next hk =>
        intro w hw
        exact hk (Prod.mk.inj (List.mem_singleton.mp hw)).1.symm
  | interior children ih =>
    have hchild := ih (nibble key level) (hwf.2 _).1
    unfold deleteAt
    rw [if_neg (Nat.not_le.mpr hwf.1)]
    generalize deleteAt key (children (nibble key level)) (level + 1) = res at hchild
    match res with
    | none => exact fun v hv => hchild v ((mem_leaves_nibble hwf).mp hv)
    | some (t', goOn, v) =>
      obtain ⟨hwf', hputs⟩ := Puts.interior hwf hchild.1 hchild.2
      cases goOn with
      | false => exact ⟨hwf', hputs⟩
      | true =>
        obtain ⟨hcol, hmem⟩ := collapse_spec hwf'
        exact ⟨hcol, fun p => (hmem p).trans (hputs p)⟩

/-- **A write through a leaf's pointer** changes the value of that key. -/
theorem overwriteAt_spec {value v : V} (hwf : Wf t level) (hmem : (key, v) ∈ leaves t) :
    Wf (overwriteAt key value t level) level ∧ Puts key (some value) t (overwriteAt key value t level) := by
  induction t generalizing level with
  | null => exact absurd hmem List.not_mem_nil
  | leaf k w =>
    obtain ⟨rfl, rfl⟩ := Prod.mk.inj (List.mem_singleton.mp hmem)
    rw [overwriteAt, if_pos rfl]
    refine ⟨trivial, fun p => ?_⟩
    obtain ⟨k', v'⟩ := p
    simp only [leaves, List.mem_singleton, Prod.mk.injEq, Option.some.injEq]
    constructor
    · rintro ⟨rfl, rfl⟩
      exact .inl ⟨rfl, rfl⟩
    · rintro (⟨rfl, rfl⟩ | ⟨⟨rfl, -⟩, hne⟩)
      · exact ⟨rfl, rfl⟩
      · exact absurd rfl hne
  | interior children ih =>
    obtain ⟨hwf', hputs⟩ := ih (nibble key level) (hwf.2 _).1 ((mem_leaves_nibble hwf).mp hmem)
    exact Puts.interior hwf hwf' hputs

end Bbq.Crt
