import Mathlib.Data.Fintype.Card
import Bbq.Zcow.Own

/-!
# Nodes that are not written

What a pointer leads to is `Frozen` from one heap to another when every node it leads to is as it was. Then
everything a reader of the first heap sees under the pointer, a reader of the second sees: the same
nodes, the same tree (`Frozen.unfold`), the same bytes (`Frozen.emit`).

`emit` unfolds as many levels as there are nodes, and the second heap has more nodes. That makes no
difference (`unfold_saturates`): a tree of addresses without a cycle has at most one level a node.
-/

namespace Bbq.Zcow

/-- What the pointer leads to is as it was. -/
def Frozen (h h' : Heap) (a : Nat) : Prop := ∀ b n, Reach h a b → h[b]? = some n → h'[b]? = some n

theorem mapM_congr {f g : Nat → Option Node} {ks : List Nat} (hfg : ∀ k ∈ ks, f k = g k) : ks.mapM f = ks.mapM g := by
  induction ks with
  | nil => rfl
  | cons k ks ih =>
    rw [List.mapM_cons, List.mapM_cons, hfg k List.mem_cons_self, ih fun j hj => hfg j (List.mem_cons_of_mem _ hj)]

theorem mapM_isSome {f : Nat → Option Node} {ks : List Nat} :
    (∃ ts, ks.mapM f = some ts) ↔ ∀ k ∈ ks, ∃ t, f k = some t := by
  induction ks with
  | nil => simp
  | cons k ks ih =>
    rw [List.forall_mem_cons, ← ih, List.mapM_cons]
    cases f k <;> cases ks.mapM f <;> simp

section Frozen

variable {h h' h'' : Heap} {S T : Nat → Prop} {a b : Nat}

theorem Reach.lt (hc : Closed h) (ha : a < h.length) (hb : Reach h a b) : b < h.length := by
  cases hb with
  | refl => exact ha
  | step _ hn hk => exact hc _ (List.mem_of_getElem? hn) _ hk

theorem Frozen.reach (hc : Closed h) (ha : a < h.length) (hf : Frozen h h' a) (hb : Reach h' a b) : Reach h a b := by
  induction hb with
  | refl => exact .refl
  | @step c k m _ hn hk ih =>
    obtain ⟨n, hn'⟩ : ∃ n, h[c]? = some n := ⟨_, List.getElem?_eq_getElem (ih.lt hc ha)⟩
    rw [hf c n ih hn'] at hn
    cases hn
    exact ih.step hn' hk

theorem Frozen.reach_iff (hc : Closed h) (ha : a < h.length) (hf : Frozen h h' a) : Reach h' a b ↔ Reach h a b := by
  refine ⟨hf.reach hc ha, fun hb => ?_⟩
  induction hb with
  | refl => exact .refl
  | step hb hn hk ih => exact ih.step (hf _ _ hb hn) hk

theorem Frozen.trans (hc : Closed h) (ha : a < h.length) (h₁ : Frozen h h' a) (h₂ : Frozen h' h'' a) : Frozen h h'' a :=
  fun b n hb hn => h₂ b n ((h₁.reach_iff hc ha).2 hb) (h₁ b n hb hn)

theorem Frozen.kid (hf : Frozen h h' a) {n : HeapNode} {k : Nat} (hn : h[a]? = some n) (hk : k ∈ n.kids) :
    Frozen h h' k :=
  fun b m hb hm => hf b m (hb.head hn hk) hm

theorem Frozen.near (hc : Closed h) (hl : h.length ≤ h'.length) (hf : Frozen h h' a) (ha : Near S h a) : Near S h' a := by
  refine ⟨Nat.lt_of_lt_of_le ha.lt hl, fun b n hb hn => ?_⟩
  have hb' := hf.reach hc ha.lt hb
  obtain ⟨m, hm⟩ : ∃ m, h[b]? = some m := ⟨_, List.getElem?_eq_getElem (hb'.lt hc ha.lt)⟩
  rw [hf b m hb' hm] at hn
  cases hn
  exact ha.avoids b n hb' hm

theorem Avoids.mono (hST : ∀ i, T i → S i) (ha : Avoids S h a) : Avoids T h a :=
  fun b n hb hn ht => ha b n hb hn (hST _ ht)

theorem Near.mono (hST : ∀ i, T i → S i) (ha : Near S h a) : Near T h a := ⟨ha.lt, ha.avoids.mono hST⟩

/-- The tree under an address that is frozen. -/
theorem Frozen.unfold (hc : Closed h) (ha : a < h.length) (hf : Frozen h h' a) (fuel : Nat) :
    h'.unfold fuel a = h.unfold fuel a := by
  induction fuel generalizing a with
  | zero => rfl
  | succ fuel ih =>
    obtain ⟨n, hn⟩ : ∃ n, h[a]? = some n := ⟨_, List.getElem?_eq_getElem ha⟩
    rw [Heap.unfold, Heap.unfold, hf a n .refl hn, hn]
    have hkids : ∀ k ∈ n.kids, h'.unfold fuel k = h.unfold fuel k := fun k hk =>
      ih (hc n (List.mem_of_getElem? hn) k hk) (hf.kid hn hk)
    simp only [mapM_congr hkids]

end Frozen

/-! ## How deep a tree can be -/

section Unfold

variable {h : Heap} {a : Nat} {fuel : Nat}

/-- As many levels hold the tree. -/
def Fits (h : Heap) (fuel a : Nat) : Prop := ∃ t, h.unfold fuel a = some t

theorem fits_succ : Fits h (fuel + 1) a ↔ ∃ n, h[a]? = some n ∧ ∀ k ∈ n.kids, Fits h fuel k := by
  unfold Fits
  rw [Heap.unfold]
  cases hn : h[a]? with
  | none => simp
  | some n =>
    have hkids : (∃ ts, n.kids.mapM (h.unfold fuel) = some ts) ↔ _ := mapM_isSome
    simp only [Option.map_eq_some_iff, Option.some.injEq, exists_eq_left']
    rw [← hkids]
    exact ⟨fun ⟨_, ks, hks, _⟩ => ⟨ks, hks⟩, fun ⟨ks, hks⟩ => ⟨_, ks, hks, rfl⟩⟩

theorem unfold_succ {t : Node} (ht : h.unfold fuel a = some t) : h.unfold (fuel + 1) a = some t := by
  induction fuel generalizing a t with
  | zero => cases ht
  | succ fuel ih =>
    obtain ⟨n, hn, hkids⟩ := fits_succ.1 ⟨t, ht⟩
    rw [Heap.unfold, hn] at ht ⊢
    have hsame : ∀ k ∈ n.kids, h.unfold (fuel + 1) k = h.unfold fuel k := fun k hk => by
      obtain ⟨u, hu⟩ := hkids k hk
      rw [hu, ih hu]
    simp only [mapM_congr hsame]
    exact ht

theorem unfold_mono {t : Node} (ht : h.unfold fuel a = some t) (more : Nat) : h.unfold (fuel + more) a = some t := by
  induction more with
  | zero => exact ht
  | succ more ih => exact unfold_succ ih

theorem Fits.mono (hf : Fits h fuel a) {fuel' : Nat} (hle : fuel ≤ fuel') : Fits h fuel' a := by
  obtain ⟨t, ht⟩ := hf
  obtain ⟨more, rfl⟩ := Nat.exists_eq_add_of_le hle
  exact ⟨t, unfold_mono ht more⟩

/-- A tree that needs exactly one level more than `j`. -/
def Needs (h : Heap) (j a : Nat) : Prop := Fits h (j + 1) a ∧ ¬ Fits h j a

theorem Needs.lt {j : Nat} (hn : Needs h j a) : a < h.length := by
  obtain ⟨n, hn, -⟩ := fits_succ.1 hn.1
  exact (List.getElem?_eq_some_iff.1 hn).1

theorem Needs.unique {i j : Nat} (hi : Needs h i a) (hj : Needs h j a) : i = j := by
  rcases Nat.lt_trichotomy i j with hlt | heq | hlt
  · exact absurd (hi.1.mono hlt) hj.2
  · exact heq
  · exact absurd (hj.1.mono hlt) hi.2

theorem Needs.kid {j : Nat} (hn : Needs h (j + 1) a) : ∃ k, Needs h j k := by
  obtain ⟨n, hn', hkids⟩ := fits_succ.1 hn.1
  by_contra hnone
  refine hn.2 (fits_succ.2 ⟨n, hn', fun k hk => ?_⟩)
  by_contra hk'
  exact hnone ⟨k, hkids k hk, hk'⟩

/-- Every level on the way down is there. -/
theorem Needs.below {i j : Nat} (hn : Needs h j a) (hij : i ≤ j) : ∃ b, Needs h i b := by
  induction j generalizing a with
  | zero =>
    obtain rfl : i = 0 := Nat.le_zero.1 hij
    exact ⟨a, hn⟩
  | succ j ih =>
    by_cases hi : i = j + 1
    · exact ⟨a, hi ▸ hn⟩
    · obtain ⟨k, hk⟩ := hn.kid
      exact ih hk (by omega)

/-- One node a level. -/
theorem Needs.length {j : Nat} (hn : Needs h j a) : j < h.length := by
  have hlevel : ∀ i : Fin (j + 1), ∃ b : Fin h.length, Needs h i b := fun i => by
    obtain ⟨b, hb⟩ := hn.below (Nat.lt_succ_iff.1 i.isLt)
    exact ⟨⟨b, hb.lt⟩, hb⟩
  choose level hneeds using hlevel
  have hinj : Function.Injective level := by
    intro i i' heq
    have hi := hneeds i
    rw [heq] at hi
    exact Fin.ext (hi.unique (hneeds i'))
  have hcard := Fintype.card_le_of_injective level hinj
  rwa [Fintype.card_fin, Fintype.card_fin] at hcard

theorem Fits.length (hf : Fits h fuel a) : Fits h h.length a := by
  induction fuel with
  | zero => exact absurd hf (by simp [Fits, Heap.unfold])
  | succ fuel ih =>
    by_cases hf' : Fits h fuel a
    · exact ih hf'
    · have hneeds : Needs h fuel a := ⟨hf, hf'⟩
      exact hf.mono hneeds.length

/-- More levels than there are nodes show nothing more. -/
theorem unfold_saturates (hle : h.length ≤ fuel) : h.unfold fuel a = h.unfold h.length a := by
  by_cases hf : Fits h h.length a
  · obtain ⟨t, ht⟩ := hf
    obtain ⟨more, rfl⟩ := Nat.exists_eq_add_of_le hle
    rw [ht, unfold_mono ht more]
  · have hnone : ∀ f, ¬ Fits h f a → h.unfold f a = none := fun f hf =>
      Option.eq_none_iff_forall_ne_some.2 fun t ht => hf ⟨t, ht⟩
    rw [hnone _ hf, hnone _ fun hf' => hf hf'.length]

end Unfold

/-- What a version serializes to. -/
theorem Frozen.emit {h h' : Heap} (hc : Closed h) (hl : h.length ≤ h'.length) {root : Option Nat} (src : Source)
    (hr : ∀ r, root = some r → r < h.length ∧ Frozen h h' r) : World.emit h' src root = World.emit h src root := by
  cases root with
  | none => rfl
  | some r =>
    obtain ⟨hlt, hf⟩ := hr r rfl
    have hsame : h'.unfold (h'.length + 1) r = h.unfold (h.length + 1) r := by
      rw [hf.unfold hc hlt, unfold_saturates (by omega), unfold_saturates (Nat.le_succ _)]
    simp only [World.emit, hsame]

end Bbq.Zcow
