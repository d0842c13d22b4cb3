import Mathlib.Data.List.Count
import Mathlib.Data.Set.Card

/-!
# Linear probing

A table of slots that are free or hold a key with what belongs to it. A key has a home, and is looked for from there
on, round the table, up to itself or to a free slot.

* `Probed`: each key is where a probe for it comes by.
* `Stops`: where a probe for a key ends. **`exists_stop`**: it does, when a slot is free.
* **`Stops.mem_set`**, **`Stops.probed_set`**: the slot that a probe stops at is the one to write the key to.
* `Probed.ncard`: the slots in use are as many as the keys.

Nothing here is about a particular hash or a particular growth.
-/

namespace Bbq.Lib

variable {K W : Type*}

/-- The slots. -/
abbrev Table (K W : Type*) := List (Option (K × W))

variable {T : Table K W} {home : K → Nat} {start d i j : Nat} {k k' : K} {w w' : W} {x : Option (K × W)}

/-- The first `d` slots of a probe for `k` hold other keys. -/
def Passes (T : Table K W) (start : Nat) (k : K) (d : Nat) : Prop :=
  ∀ e < d, ∃ k' w, T[(start + e) % T.length]? = some (some (k', w)) ∧ k' ≠ k

/-- A probe for `k` stops after `d` slots: the next one is free or holds the key. -/
structure Stops (T : Table K W) (start : Nat) (k : K) (d : Nat) : Prop where
  passes : Passes T start k d
  slot : ∃ x, T[(start + d) % T.length]? = some x ∧ ∀ k' w, x = some (k', w) → k' = k

/-- Each key is where a probe for it comes by. -/
def Probed (home : K → Nat) (T : Table K W) : Prop :=
  ∀ i k w, T[i]? = some (some (k, w)) → ∃ d, (home k + d) % T.length = i ∧ Passes T (home k) k d

/-- A probe comes by every slot. -/
theorem exists_offset (start : Nat) (hi : i < T.length) : ∃ d < T.length, (start + d) % T.length = i := by
  refine ⟨(i + (T.length - start % T.length)) % T.length, Nat.mod_lt _ (by omega), ?_⟩
  have hhome : start % T.length < T.length := Nat.mod_lt _ (by omega)
  have hsum : start % T.length + (i + (T.length - start % T.length)) = i + T.length := by omega
  rw [Nat.add_mod_mod, ← Nat.mod_add_mod, hsum, Nat.add_mod_right, Nat.mod_eq_of_lt hi]

/-- **A probe ends**, when a slot is free. -/
theorem exists_stop (hfree : none ∈ T) (start : Nat) (k : K) : ∃ d < T.length, Stops T start k d := by
  classical
  obtain ⟨i, hi⟩ := List.mem_iff_getElem?.mp hfree
  obtain ⟨hlt, -⟩ := List.getElem?_eq_some_iff.mp hi
  obtain ⟨d, hd, hoffset⟩ := exists_offset start hlt
  have hend : ∃ d, ¬∃ k' w, T[(start + d) % T.length]? = some (some (k', w)) ∧ k' ≠ k := by
    refine ⟨d, ?_⟩
    rintro ⟨k', w, hslot, -⟩
    rw [hoffset, hi] at hslot
    cases hslot
  have hleast : Nat.find hend ≤ d := by
    refine Nat.find_min' hend ?_
    rintro ⟨k', w, hslot, -⟩
    rw [hoffset, hi] at hslot
    cases hslot
  refine ⟨Nat.find hend, by omega, fun e he => not_not.mp (Nat.find_min hend he), ?_⟩
  have hin : (start + Nat.find hend) % T.length < T.length := Nat.mod_lt _ (by omega)
  refine ⟨_, List.getElem?_eq_getElem hin, fun k' w hslot => ?_⟩
  by_contra hne
  exact Nat.find_spec hend ⟨k', w, by rw [List.getElem?_eq_getElem hin, hslot], hne⟩

/-- A key is in one slot. -/
theorem Probed.inj (hp : Probed home T) (hi : T[i]? = some (some (k, w))) (hj : T[j]? = some (some (k, w'))) : i = j := by
  obtain ⟨d, rfl, hd⟩ := hp i k w hi
  obtain ⟨e, rfl, he⟩ := hp j k w' hj
  rcases Nat.lt_trichotomy d e with hlt | rfl | hlt
  · obtain ⟨k', v, hslot, hne⟩ := he d hlt
    rw [hi] at hslot
    cases hslot
    exact absurd rfl hne
  · rfl
  · obtain ⟨k', v, hslot, hne⟩ := hd e hlt
    rw [hj] at hslot
    cases hslot
    exact absurd rfl hne

theorem Probed.unique (hp : Probed home T) (h : some (k, w) ∈ T) (h' : some (k, w') ∈ T) : w = w' := by
  obtain ⟨i, hi⟩ := List.mem_iff_getElem?.mp h
  obtain ⟨j, hj⟩ := List.mem_iff_getElem?.mp h'
  obtain rfl := hp.inj hi hj
  rw [hi] at hj
  cases hj
  rfl

namespace Stops

/-- The key is nowhere else than where its probe stops. -/
theorem at_stop (hp : Probed home T) (hs : Stops T (home k) k d) (hj : T[j]? = some (some (k, w))) :
    j = (home k + d) % T.length := by
  obtain ⟨e, rfl, he⟩ := hp j k w hj
  rcases Nat.lt_trichotomy e d with hlt | rfl | hlt
  · obtain ⟨k', v, hslot, hne⟩ := hs.passes e hlt
    rw [hj] at hslot
    cases hslot
    exact absurd rfl hne
  · rfl
  · obtain ⟨k', v, hslot, hne⟩ := he d hlt
    obtain ⟨x, hx, hkey⟩ := hs.slot
    rw [hx] at hslot
    exact absurd (hkey k' v (Option.some.inj hslot)) hne

/-- A probe that stops at a free slot is for a key that is not there. -/
theorem absent (hp : Probed home T) (hs : Stops T (home k) k d) (hfree : T[(home k + d) % T.length]? = some none) :
    ∀ w, some (k, w) ∉ T := by
  intro w hmem
  obtain ⟨j, hj⟩ := List.mem_iff_getElem?.mp hmem
  rw [hs.at_stop hp hj, hfree] at hj
  cases hj

/-- A probe that stops at its key has found what belongs to it. -/
theorem found (hp : Probed home T) (hs : Stops T (home k) k d)
    (hhit : T[(home k + d) % T.length]? = some (some (k, w))) : some (k, w') ∈ T ↔ w' = w := by
  constructor
  · intro hmem
    obtain ⟨j, hj⟩ := List.mem_iff_getElem?.mp hmem
    rw [hs.at_stop hp hj, hhit] at hj
    cases hj
    rfl
  · rintro rfl
    exact List.mem_of_getElem? hhit

/-- What is passed is passed when the slot is written. -/
theorem passes_set (hs : Stops T start k d) {s e : Nat} (h : Passes T s k' e) (w : W) :
    Passes (T.set ((start + d) % T.length) (some (k, w))) s k' e := by
  obtain ⟨x, hx, hkey⟩ := hs.slot
  obtain ⟨hin, -⟩ := List.getElem?_eq_some_iff.mp hx
  intro f hf
  obtain ⟨k₁, v, hslot, hne⟩ := h f hf
  rw [List.length_set]
  by_cases hpos : (start + d) % T.length = (s + f) % T.length
  · rw [← hpos] at hslot ⊢
    rw [List.getElem?_set_self hin]
    rw [hx] at hslot
    obtain rfl := hkey k₁ v (Option.some.inj hslot)
    exact ⟨_, _, rfl, hne⟩
  · rw [List.getElem?_set_ne hpos]
    exact ⟨k₁, v, hslot, hne⟩

/-- **The write keeps every key in the way of its probe.** -/
theorem probed_set (hp : Probed home T) (hs : Stops T (home k) k d) (w : W) :
    Probed home (T.set ((home k + d) % T.length) (some (k, w))) := by
  obtain ⟨x, hx, hkey⟩ := hs.slot
  obtain ⟨hin, -⟩ := List.getElem?_eq_some_iff.mp hx
  intro j k' w' hj
  rw [List.length_set]
  by_cases hpos : (home k + d) % T.length = j
  · subst hpos
    rw [List.getElem?_set_self hin] at hj
    cases hj
    exact ⟨d, rfl, hs.passes_set hs.passes w⟩
  · rw [List.getElem?_set_ne hpos] at hj
    obtain ⟨e, rfl, he⟩ := hp j k' w' hj
    exact ⟨e, rfl, hs.passes_set he w⟩

/-- **The write is that of the key.** -/
theorem mem_set (hp : Probed home T) (hs : Stops T (home k) k d) :
    some (k', w') ∈ T.set ((home k + d) % T.length) (some (k, w)) ↔
      k' = k ∧ w' = w ∨ k' ≠ k ∧ some (k', w') ∈ T := by
  obtain ⟨x, hx, hkey⟩ := hs.slot
  obtain ⟨hin, -⟩ := List.getElem?_eq_some_iff.mp hx
  constructor
  · intro hmem
    obtain ⟨j, hj⟩ := List.mem_iff_getElem?.mp hmem
    by_cases hpos : (home k + d) % T.length = j
    · subst hpos
      rw [List.getElem?_set_self hin] at hj
      cases hj
      exact .inl ⟨rfl, rfl⟩
    · rw [List.getElem?_set_ne hpos] at hj
      refine .inr ⟨?_, List.mem_of_getElem? hj⟩
      rintro rfl
      exact hpos (hs.at_stop hp hj).symm
  · rintro (⟨rfl, rfl⟩ | ⟨hne, hmem⟩)
    · exact List.mem_of_getElem? (List.getElem?_set_self hin)
    · obtain ⟨j, hj⟩ := List.mem_iff_getElem?.mp hmem
      have hpos : (home k + d) % T.length ≠ j := by
        rintro rfl
        rw [hx] at hj
        exact hne (hkey k' w' (Option.some.inj hj))
      refine List.mem_of_getElem? (i := j) ?_
      rw [List.getElem?_set_ne hpos, hj]

end Stops

/-! ## Counting -/

/-- The slots in use. -/
def inUse (T : Table K W) : Nat := T.countP Option.isSome

theorem exists_free (h : inUse T < T.length) : none ∈ T := by
  obtain ⟨x, hx, hnone⟩ := List.countP_lt_length_iff.mp h
  rw [Option.isSome_eq_false_iff, Option.isNone_iff_eq_none] at hnone
  rwa [← hnone]

theorem inUse_set (hi : T[i]? = some x) (p : K × W) :
    inUse (T.set i (some p)) = if x.isSome then inUse T else inUse T + 1 := by
  obtain ⟨hin, rfl⟩ := List.getElem?_eq_some_iff.mp hi
  have hpos := List.boole_getElem_le_countP (p := Option.isSome) hin
  rw [inUse, inUse, List.countP_set hin]
  split
  · next hsome =>
    rw [if_pos hsome] at hpos
    simp only [Option.isSome_some, if_true]
    omega
  · simp only [Option.isSome_some, if_true, Nat.sub_zero]

/-- The keys of the table. -/
def keysOf (T : Table K W) : Set K := { k | ∃ w, some (k, w) ∈ T }

/-- **The slots in use are as many as the keys.** -/
theorem Probed.ncard (hp : Probed home T) : (keysOf T).Finite ∧ inUse T = (keysOf T).ncard := by
  classical
  have hkeys : keysOf T = ↑((T.filterMap id).map Prod.fst).toFinset := by
    ext k
    simp only [keysOf, Set.mem_ofPred_eq, List.coe_toFinset, List.mem_map, List.mem_filterMap, id_eq, exists_eq_right,
      Prod.exists]
    constructor
    · rintro ⟨w, hmem⟩
      exact ⟨k, w, hmem, rfl⟩
    · rintro ⟨k', w, hmem, rfl⟩
      exact ⟨w, hmem⟩
  have hnodup : ((T.filterMap id).map Prod.fst).Nodup := by
    rw [List.Nodup, List.pairwise_map, List.pairwise_filterMap, List.pairwise_iff_getElem]
    intro i j hi hj hlt p hpi q hqj hsame
    have hfirst : T[i]? = some (some (p.1, p.2)) := by
      rw [List.getElem?_eq_getElem hi, ← hpi]
      rfl
    have hsecond : T[j]? = some (some (p.1, q.2)) := by
      rw [List.getElem?_eq_getElem hj, hsame, ← hqj]
      rfl
    have hij := hp.inj hfirst hsecond
    omega
  have hlength : ((T.filterMap id).map Prod.fst).length = inUse T := by
    rw [List.length_map, List.length_filterMap_eq_countP]
    rfl
  refine ⟨by rw [hkeys]; exact Finset.finite_toSet _, ?_⟩
  rw [hkeys, Set.ncard_coe_finset, List.toFinset_card_of_nodup hnodup, hlength]

end Bbq.Lib
