import Bbq.Lib.Forest
import Bbq.Egraph.Graph

/-!
# What finding changes

`eg_find` gives the root of an id and moves no root (`findLoop_spec`). Between a graph and one that only
finds have been run on there is `Same`: they differ in parents, and have the same roots.
-/

namespace Bbq.Egraph

open Bbq.Lib.Forest

/-- The parents are a forest over the ids handed out. -/
structure Grove (parent : List Nat) : Prop where
  below : ∀ x, x < parent.length → up parent x < parent.length
  rooted : Rooted (up parent)

/-- The root above an id. -/
def root (parent : List Nat) (x : Nat) : Nat := (findLoop parent.length parent x).1

theorem lt_of_up_ne {parent : List Nat} {x : Nat} (h : up parent x ≠ x) : x < parent.length := by
  by_contra hx
  exact h (by simp [up, List.getD_eq_getElem?_getD, List.getElem?_eq_none (not_lt.mp hx)])

theorem up_set {parent : List Nat} {x y : Nat} (hx : x < parent.length) :
    up (parent.set x y) = Function.update (up parent) x y := by
  funext z
  by_cases hz : z = x
  · subst hz
    rw [Function.update_self]
    simp only [up, List.getD_eq_getElem?_getD, List.getElem?_set_self hx, Option.getD_some]
  · rw [Function.update_of_ne hz]
    simp only [up, List.getD_eq_getElem?_getD, List.getElem?_set_ne (Ne.symm hz)]

theorem findLoop_spec {turns : Nat} {parent : List Nat} {x k r : Nat} (hbelow : ∀ y, y < parent.length →
      up parent y < parent.length) (h : Above (up parent) k x r) (hk : k ≤ turns) :
    (findLoop turns parent x).1 = r ∧ (findLoop turns parent x).2.length = parent.length ∧
      (∀ y, y < parent.length → up (findLoop turns parent x).2 y < parent.length) ∧
      ∀ j y s, Above (up parent) j y s → ∃ j', Above (up (findLoop turns parent x).2) j' y s := by
  induction turns generalizing parent x k with
  | zero =>
    obtain rfl : k = 0 := by omega
    cases h with
    | root _ => exact ⟨rfl, rfl, hbelow, fun j y s h => ⟨j, h⟩⟩
  | succ turns ih =>
    unfold findLoop
    by_cases hroot : up parent x = x
    · rw [if_pos hroot]
      obtain ⟨-, rfl⟩ := h.of_root hroot
      exact ⟨rfl, rfl, hbelow, fun j y s h => ⟨j, h⟩⟩
    · rw [if_neg hroot]
      have hx := lt_of_up_ne hroot
      have hhalve : up (parent.set x (up parent (up parent x))) = halve (up parent) x := up_set hx
      have hlen : (parent.set x (up parent (up parent x))).length = parent.length := List.length_set
      have hbelow' : ∀ y, y < (parent.set x (up parent (up parent x))).length →
          up (parent.set x (up parent (up parent x))) y < (parent.set x (up parent (up parent x))).length := by
        intro y hy
        rw [hlen] at hy ⊢
        rw [up_set hx]
        by_cases hyx : y = x
        · rw [hyx, Function.update_self]
          exact hbelow _ (hbelow x hx)
        · rw [Function.update_of_ne hyx]
          exact hbelow y hy
      obtain ⟨j, rfl, hup⟩ := h.of_step hroot
      have hnext : ∃ i ≤ turns, Above (up (parent.set x (up parent (up parent x))))
          i (up (parent.set x (up parent (up parent x))) x) r := by
        rw [hhalve]
        obtain ⟨i, hi, hx'⟩ := h.halve x
        by_cases hstill : halve (up parent) x x = x
        · rw [hstill]
          obtain ⟨rfl, rfl⟩ := hx'.of_root hstill
          exact ⟨0, Nat.zero_le _, hx'⟩
        · obtain ⟨i', rfl, hstep⟩ := hx'.of_step hstill
          exact ⟨i', by omega, hstep⟩
      obtain ⟨i, hi, hnext⟩ := hnext
      obtain ⟨hfound, hlen', hbelow'', hkept⟩ := ih hbelow' hnext hi
      refine ⟨hfound, hlen'.trans hlen, fun y hy => ?_, fun j y s hy => ?_⟩
      · rw [hlen] at hbelow''
        exact hbelow'' y hy
      · obtain ⟨j', -, hy'⟩ := hy.halve x
        rw [← hhalve] at hy'
        exact hkept j' y s hy'

namespace Grove

variable {parent : List Nat} (hp : Grove parent)

include hp

theorem above_lt {k x r : Nat} (h : Above (up parent) k x r) : k ≤ parent.length := by
  by_cases hx : x < parent.length
  · exact le_of_lt (Bbq.Lib.Forest.above_lt hp.below h hx)
  · have hroot : up parent x = x := by
      by_contra hne
      exact hx (lt_of_up_ne hne)
    obtain ⟨rfl, -⟩ := h.of_root hroot
    exact Nat.zero_le _

theorem root_eq {k x r : Nat} (h : Above (up parent) k x r) : root parent x = r :=
  (findLoop_spec hp.below h (hp.above_lt h)).1

theorem above_root (x : Nat) : ∃ k, Above (up parent) k x (root parent x) := by
  obtain ⟨k, r, h⟩ := hp.rooted x
  rw [hp.root_eq h]
  exact ⟨k, h⟩

theorem up_root (x : Nat) : up parent (root parent x) = root parent x := by
  obtain ⟨k, h⟩ := hp.above_root x
  exact h.up_root

theorem root_of_up {x : Nat} (h : up parent x = x) : root parent x = x := hp.root_eq (.root h)

theorem root_root (x : Nat) : root parent (root parent x) = root parent x := hp.root_of_up (hp.up_root x)

theorem root_lt {x : Nat} (hx : x < parent.length) : root parent x < parent.length := by
  obtain ⟨k, h⟩ := hp.above_root x
  generalize root parent x = r at h
  induction h with
  | root _ => exact hx
  | step _ _ ih => exact ih (hp.below _ hx)

end Grove

/-- Parents with the same roots. -/
structure Halved (parent parent' : List Nat) : Prop where
  length : parent'.length = parent.length
  grove : Grove parent'
  root : ∀ x, root parent' x = root parent x

theorem Halved.refl {parent : List Nat} (hp : Grove parent) : Halved parent parent := ⟨rfl, hp, fun _ => rfl⟩

theorem Halved.trans {p p' p'' : List Nat} (h : Halved p p') (h' : Halved p' p'') : Halved p p'' :=
  ⟨h'.length.trans h.length, h'.grove, fun x => (h'.root x).trans (h.root x)⟩

theorem findLoop_halved {parent : List Nat} (hp : Grove parent) (x : Nat) :
    Halved parent (findLoop parent.length parent x).2 := by
  obtain ⟨k, r, h⟩ := hp.rooted x
  obtain ⟨-, hlen, hbelow, hkept⟩ := findLoop_spec hp.below h (hp.above_lt h)
  have hgrove : Grove (findLoop parent.length parent x).2 := by
    refine ⟨fun y hy => ?_, fun y => ?_⟩
    · rw [hlen] at hy ⊢
      exact hbelow y hy
    · obtain ⟨j, s, hy⟩ := hp.rooted y
      obtain ⟨j', hy'⟩ := hkept j y s hy
      exact ⟨j', s, hy'⟩
  refine ⟨hlen, hgrove, fun y => ?_⟩
  obtain ⟨j, hy⟩ := hp.above_root y
  obtain ⟨j', hy'⟩ := hkept j y _ hy
  exact hgrove.root_eq hy'

/-- Graphs that differ in parents, with the same roots. -/
structure Same (g g' : EGraph) : Prop where
  halved : Halved g.parent g'.parent
  eq : g' = { g with parent := g'.parent }

namespace Same

variable {g g' g'' : EGraph}

theorem refl (hg : Grove g.parent) : Same g g := ⟨.refl hg, rfl⟩

theorem nodes (h : Same g g') : g'.nodes = g.nodes := by rw [h.eq]

theorem classes (h : Same g g') : g'.classes = g.classes := by rw [h.eq]

theorem hashcons (h : Same g g') : g'.hashcons = g.hashcons := by rw [h.eq]

theorem worklist (h : Same g g') : g'.worklist = g.worklist := by rw [h.eq]

theorem trans (h : Same g g') (h' : Same g' g'') : Same g g'' := by
  refine ⟨h.halved.trans h'.halved, ?_⟩
  rw [h'.eq, h.eq]

end Same

theorem egFind_fst (g : EGraph) (x : Nat) : (egFind g x).1 = root g.parent x := rfl

theorem egFind_same {g : EGraph} (hg : Grove g.parent) (x : Nat) : Same g (egFind g x).2 :=
  ⟨findLoop_halved hg x, rfl⟩

theorem findAll_spec {g : EGraph} (hg : Grove g.parent) (ids : List Nat) :
    (findAll g ids).1 = ids.map (root g.parent) ∧ Same g (findAll g ids).2 := by
  induction ids generalizing g with
  | nil => exact ⟨rfl, .refl hg⟩
  | cons id ids ih =>
    have hfirst := egFind_same hg id
    obtain ⟨hroots, hrest⟩ := ih hfirst.halved.grove
    have hmap : ids.map (root (egFind g id).2.parent) = ids.map (root g.parent) :=
      List.map_congr_left fun x _ => hfirst.halved.root x
    refine ⟨?_, hfirst.trans hrest⟩
    change (egFind g id).1 :: (findAll (egFind g id).2 ids).1 = _
    rw [hroots, hmap, egFind_fst, List.map_cons]

end Bbq.Egraph
