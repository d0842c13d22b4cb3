import Mathlib.Data.List.Nodup
import Mathlib.Data.List.Perm.Subperm
import Mathlib.Order.WellFounded
import Mathlib.Order.RelClasses

/-!
# Relaxation that follows improvements

Nodes are offered costs, and every edge offers its target the cost of its source and its weight. `Best`
keeps for each node the least cost so far and what gave it (`Mark`). An offer that improves a node is
followed at once along the edges that leave it (`follow`), to the depth that still improves.

* **`offers_settled`**: on enough fuel the offers all come through, and what is kept then is
  `Settled`: no offer and no edge improves it, and every cost kept is that of an offer or is passed on
  by an edge, along which no cycle leads back.

Nothing here is about a particular graph.
-/

namespace Bbq.Lib.Relax

variable {ν ι : Type} [DecidableEq ν]

structure Edge (ν ι : Type) where
  source : ν
  target : ν
  weight : Nat
  label : ι

/-- What gave a node its cost. -/
inductive Mark (ν ι : Type)
  | unset
  | direct (a : ι)
  | along (e : Edge ν ι)

structure Best (ν ι : Type) where
  cost : ν → Nat
  mark : ν → Mark ν ι

/-- An offer: the node, the cost, where it is from. -/
abbrev Offer (ν ι : Type) := ν × Nat × ι

namespace Best

/-- No node has a cost below `top`. -/
def empty (top : Nat) : Best ν ι := { cost := fun _ => top, mark := fun _ => .unset }

def put (B : Best ν ι) (x : ν) (c : Nat) (m : Mark ν ι) : Best ν ι :=
  { cost := Function.update B.cost x c, mark := Function.update B.mark x m }

variable (B : Best ν ι) (x y : ν) (c : Nat) (m : Mark ν ι)

@[simp] theorem cost_put_self : (B.put x c m).cost x = c := Function.update_self ..

@[simp] theorem mark_put_self : (B.put x c m).mark x = m := Function.update_self ..

variable {x y}

theorem cost_put_of_ne (h : y ≠ x) : (B.put x c m).cost y = B.cost y := Function.update_of_ne h ..

theorem mark_put_of_ne (h : y ≠ x) : (B.put x c m).mark y = B.mark y := Function.update_of_ne h ..

end Best

variable (out : ν → List (Edge ν ι))

/-- Along one edge from a node of cost `c`. `next` follows the edges of the target. -/
def tryEdge (next : ν → Nat → Best ν ι → Option (Best ν ι)) (c : Nat) (B : Best ν ι) (e : Edge ν ι) :
    Option (Best ν ι) :=
  if c + e.weight < B.cost e.target then
    let B' := B.put e.target (c + e.weight) (.along e)
    if (out e.target).isEmpty then some B' else next e.target (c + e.weight) B'
  else some B

/-- Along all the edges that leave `x`, which has just got the cost `c`. -/
def follow : Nat → ν → Nat → Best ν ι → Option (Best ν ι)
  | 0, _, _, _ => none
  | fuel + 1, x, c, B => (out x).foldlM (tryEdge out (follow fuel) c) B

def offer (fuel : Nat) (B : Best ν ι) (o : Offer ν ι) : Option (Best ν ι) :=
  if o.2.1 < B.cost o.1 then
    let B' := B.put o.1 o.2.1 (.direct o.2.2)
    if (out o.1).isEmpty then some B' else follow out fuel o.1 o.2.1 B'
  else some B

def offers (fuel : Nat) (os : List (Offer ν ι)) (B : Best ν ι) : Option (Best ν ι) :=
  os.foldlM (offer out fuel) B

/-! ## What is kept -/

/-- No edge from `x` improves its target. -/
def Closed (B : Best ν ι) (x : ν) : Prop := ∀ e ∈ out x, B.cost e.target ≤ B.cost x + e.weight

/-- Every cost is accounted for: `P` holds of the direct ones, and one passed on by an edge is not below
what the edge passes on now. `rank` grows along the edges that still pass it on exactly. -/
structure Backed (top : Nat) (P : Offer ν ι → Prop) (rank : ν → Nat) (B : Best ν ι) : Prop where
  unset : ∀ x, B.mark x = .unset ↔ B.cost x = top
  le_top : ∀ x, B.cost x ≤ top
  direct : ∀ x a, B.mark x = .direct a → P (x, B.cost x, a)
  along : ∀ x e, B.mark x = .along e → e ∈ out e.source ∧ e.target = x ∧
    B.cost e.source + e.weight ≤ B.cost x ∧ (B.cost e.source + e.weight = B.cost x → rank e.source < rank x)

/-- Some rank accounts for all costs. -/
def Sound (top : Nat) (P : Offer ν ι → Prop) (B : Best ν ι) : Prop := ∃ rank, Backed out top P rank B

variable {out} {top : Nat} {P : Offer ν ι → Prop}

omit [DecidableEq ν] in
theorem sound_empty : Sound out top P (Best.empty top) :=
  ⟨fun _ => 0,
    { unset := fun _ => ⟨fun _ => rfl, fun _ => rfl⟩
      le_top := fun _ => le_refl _
      direct := fun _ _ h => by cases h
      along := fun _ _ h => by cases h }⟩

/-- A rank behind what gave a node its cost. -/
def Mark.behind (rank : ν → Nat) : Mark ν ι → Nat
  | .along e => rank e.source + 1
  | _ => 0

/-- A node that gets a smaller cost is put last in rank: nothing passed on from it exactly any more. -/
theorem Sound.put {B : Best ν ι} (hB : Sound out top P B) {x : ν} {c : Nat} {m : Mark ν ι} (hless : c < B.cost x)
    (hset : m ≠ .unset) (hdirect : ∀ a, m = .direct a → P (x, c, a))
    (halong : ∀ e, m = .along e → e ∈ out e.source ∧ e.target = x ∧ B.cost e.source + e.weight = c) :
    Sound out top P (B.put x c m) := by
  obtain ⟨rank, hB⟩ := hB
  have hsource : ∀ e, m = .along e → e.source ≠ x := by
    rintro e he hx
    obtain ⟨-, -, hc⟩ := halong e he
    rw [hx] at hc
    omega
  refine ⟨Function.update rank x (m.behind rank), ⟨fun y => ?_, fun y => ?_, fun y a h => ?_, fun y e h => ?_⟩⟩
  · by_cases hy : y = x
    · subst hy
      have htop := hB.le_top y
      simp only [Best.mark_put_self, Best.cost_put_self, hset, false_iff]
      omega
    · rw [B.mark_put_of_ne c m hy, B.cost_put_of_ne c m hy]
      exact hB.unset y
  · by_cases hy : y = x
    · subst hy
      have htop := hB.le_top y
      rw [Best.cost_put_self]
      omega
    · rw [B.cost_put_of_ne c m hy]
      exact hB.le_top y
  · by_cases hy : y = x
    · subst hy
      rw [Best.mark_put_self] at h
      rw [Best.cost_put_self]
      exact hdirect a h
    · rw [B.mark_put_of_ne c m hy] at h
      rw [B.cost_put_of_ne c m hy]
      exact hB.direct y a h
  · by_cases hy : y = x
    · subst hy
      rw [Best.mark_put_self] at h
      obtain ⟨hmem, htarget, hc⟩ := halong e h
      have hne := hsource e h
      rw [Best.cost_put_self, B.cost_put_of_ne c m hne, Function.update_self, Function.update_of_ne hne]
      refine ⟨hmem, htarget, le_of_eq hc, fun _ => ?_⟩
      rw [h]
      exact Nat.lt_succ_self _
    · rw [B.mark_put_of_ne c m hy] at h
      obtain ⟨hmem, htarget, hle, hrank⟩ := hB.along y e h
      rw [B.cost_put_of_ne c m hy, Function.update_of_ne hy]
      by_cases hs : e.source = x
      · rw [hs] at hle
        rw [hs, Best.cost_put_self]
        exact ⟨hs ▸ hmem, htarget, by omega, fun he => by omega⟩
      · rw [B.cost_put_of_ne c m hs, Function.update_of_ne hs]
        exact ⟨hmem, htarget, hle, hrank⟩

/-! ## Following -/

/-- From `B` to `B'` while the edges leaving nodes of cost above `c` were followed. -/
structure Followed (out : ν → List (Edge ν ι)) (top : Nat) (P : Offer ν ι → Prop) (c : Nat)
    (B B' : Best ν ι) : Prop where
  le : ∀ z, B'.cost z ≤ B.cost z
  low : ∀ z, B.cost z ≤ c → B'.cost z = B.cost z
  closed : ∀ z, B'.cost z < B.cost z ∨ Closed out B z → Closed out B' z
  sound : Sound out top P B → Sound out top P B'

namespace Followed

variable {c c' : Nat} {B B' B'' : Best ν ι}

omit [DecidableEq ν] in
theorem refl (B : Best ν ι) : Followed out top P c B B where
  le := fun _ => le_refl _
  low := fun _ _ => rfl
  closed := fun _ h => h.resolve_left (lt_irrefl _)
  sound := id

omit [DecidableEq ν] in
theorem trans (h : Followed out top P c B B') (h' : Followed out top P c B' B'') :
    Followed out top P c B B'' where
  le := fun z => le_trans (h'.le z) (h.le z)
  low := fun z hz => (h'.low z (le_of_eq_of_le (h.low z hz) hz)).trans (h.low z hz)
  closed := fun z hz => by
    refine h'.closed z ?_
    by_cases hless : B''.cost z < B'.cost z
    · exact .inl hless
    · refine .inr (h.closed z (hz.imp_left fun hlt => ?_))
      exact lt_of_le_of_lt (not_lt.mp hless) hlt
  sound := h'.sound ∘ h.sound

end Followed

/-- A node gets a smaller cost, and what leaves it is closed again afterwards. -/
theorem followed_put {c : Nat} {B B' : Best ν ι} {x : ν} {d : Nat} {m : Mark ν ι} (hless : d < B.cost x)
    (hc : c ≤ d) (hsound : Sound out top P B → Sound out top P (B.put x d m))
    (h : Followed out top P d (B.put x d m) B') (hx : Closed out B' x) : Followed out top P c B B' where
  le := fun z => by
    by_cases hz : z = x
    · subst hz
      have := h.le z
      rw [Best.cost_put_self] at this
      omega
    · exact le_of_le_of_eq (h.le z) (B.cost_put_of_ne d m hz)
  low := fun z hz => by
    have hne : z ≠ x := by
      rintro rfl
      omega
    have hput := B.cost_put_of_ne d m hne
    rw [h.low z (by omega), hput]
  closed := fun z hz => by
    by_cases hzx : z = x
    · exact hzx ▸ hx
    · have hput := B.cost_put_of_ne d m hzx
      refine h.closed z (hz.imp (fun hlt => hput.symm ▸ hlt) fun hclosed e he => ?_)
      rw [hput]
      refine le_trans ?_ (hclosed e he)
      by_cases ht : e.target = x
      · rw [ht, Best.cost_put_self]
        exact le_of_lt hless
      · exact le_of_eq (B.cost_put_of_ne d m ht)
  sound := h.sound ∘ hsound

variable (out) in
/-- What following the edges of `x` comes to. -/
def FollowsFrom (top : Nat) (P : Offer ν ι → Prop) (x : ν) (c : Nat) (B : Best ν ι)
    (r : Option (Best ν ι)) : Prop :=
  ∃ B', r = some B' ∧ Followed out top P c B B' ∧ Closed out B' x

/-- The edges of `x`, once following the targets is understood. -/
theorem foldlM_tryEdge {next : ν → Nat → Best ν ι → Option (Best ν ι)} {x : ν} {c : Nat} {stack : List ν}
    (hnext : ∀ y d B, c ≤ d → out y ≠ [] → B.cost y = d → y ∉ x :: stack → (∀ a ∈ x :: stack, B.cost a ≤ c) →
      FollowsFrom out top P y d B (next y d B))
    (hsource : ∀ e ∈ out x, e.source = x) (es : List (Edge ν ι)) (hes : ∀ e ∈ es, e ∈ out x) (B : Best ν ι)
    (hx : B.cost x = c) (hstack : ∀ a ∈ stack, B.cost a ≤ c) :
    ∃ B', es.foldlM (tryEdge out next c) B = some B' ∧ Followed out top P c B B' ∧
      ∀ e ∈ es, B'.cost e.target ≤ c + e.weight := by
  induction es generalizing B with
  | nil => exact ⟨B, rfl, .refl B, fun e he => absurd he List.not_mem_nil⟩
  | cons e es ih =>
    have he : e ∈ out x := hes e List.mem_cons_self
    have hone : ∃ B₁, tryEdge out next c B e = some B₁ ∧ Followed out top P c B B₁ ∧
        B₁.cost e.target ≤ c + e.weight := by
      unfold tryEdge
      by_cases hless : c + e.weight < B.cost e.target
      · have hsound : Sound out top P B → Sound out top P (B.put e.target (c + e.weight) (.along e)) := fun h =>
          h.put hless (fun h => by cases h) (fun a h => by cases h) fun e' h => by
            cases h
            rw [hsource e he, hx]
            exact ⟨he, rfl, rfl⟩
        rw [if_pos hless]
        dsimp only
        by_cases hout : out e.target = []
        · refine ⟨_, by rw [hout]; rfl, followed_put hless (Nat.le_add_right c _) hsound (.refl _) ?_, ?_⟩
          · intro e' he'
            rw [hout] at he'
            exact absurd he' List.not_mem_nil
          · rw [Best.cost_put_self]
        · have hcosts : ∀ a ∈ x :: stack, B.cost a ≤ c := by
            rintro a ha
            rcases List.mem_cons.mp ha with rfl | ha
            · exact le_of_eq hx
            · exact hstack a ha
          have hnew : e.target ∉ x :: stack := fun hmem => by
            have := hcosts _ hmem
            omega
          obtain ⟨B', hrun, hfollowed, hclosed⟩ := hnext e.target (c + e.weight)
            (B.put e.target (c + e.weight) (.along e)) (Nat.le_add_right c _) hout (Best.cost_put_self ..) hnew
            fun a ha => by
              have hne : a ≠ e.target := by
                rintro rfl
                exact hnew ha
              rw [B.cost_put_of_ne _ _ hne]
              exact hcosts a ha
          refine ⟨B', ?_, followed_put hless (Nat.le_add_right c _) hsound hfollowed hclosed, ?_⟩
          · rw [if_neg (by simpa using hout)]
            exact hrun
          · exact le_of_le_of_eq (hfollowed.le _) (Best.cost_put_self ..)
      · rw [if_neg hless]
        exact ⟨B, rfl, .refl B, not_lt.mp hless⟩
    obtain ⟨B₁, hrun₁, hfollowed₁, htarget⟩ := hone
    obtain ⟨B₂, hrun₂, hfollowed₂, hrest⟩ := ih (fun e' h => hes e' (List.mem_cons_of_mem _ h)) B₁
      ((hfollowed₁.low x (le_of_eq hx)).trans hx)
      (fun a ha => le_of_eq_of_le (hfollowed₁.low a (hstack a ha)) (hstack a ha))
    refine ⟨B₂, ?_, hfollowed₁.trans hfollowed₂, ?_⟩
    · rw [List.foldlM_cons, hrun₁]
      exact hrun₂
    · rintro e' he'
      rcases List.mem_cons.mp he' with rfl | he'
      · exact le_trans (hfollowed₂.le _) htarget
      · exact hrest e' he'

/-- Following ends when there is a unit of fuel for every node it can lie at, less those it lies at
already. -/
theorem follow_ends {nodes : List ν} (hnodes : ∀ x, out x ≠ [] → x ∈ nodes)
    (hsource : ∀ x, ∀ e ∈ out x, e.source = x) (fuel : Nat) (stack : List ν) (x : ν) (c : Nat) (B : Best ν ι)
    (hout : out x ≠ []) (hnodup : (x :: stack).Nodup) (hin : ∀ a ∈ stack, a ∈ nodes) (hx : B.cost x = c)
    (hstack : ∀ a ∈ stack, B.cost a ≤ c) (hfuel : nodes.length ≤ fuel + stack.length) :
    FollowsFrom out top P x c B (follow out fuel x c B) := by
  induction fuel generalizing stack x c B with
  | zero =>
    have hsub : x :: stack ⊆ nodes := fun a ha => by
      rcases List.mem_cons.mp ha with rfl | ha
      · exact hnodes a hout
      · exact hin a ha
    have hlen := (List.subperm_of_subset hnodup hsub).length_le
    rw [List.length_cons] at hlen
    omega
  | succ fuel ih =>
    have hnext : ∀ y d (B : Best ν ι), c ≤ d → out y ≠ [] → B.cost y = d → y ∉ x :: stack →
        (∀ a ∈ x :: stack, B.cost a ≤ c) → FollowsFrom out top P y d B (follow out fuel y d B) := by
      intro y d B hd hy hcost hnew hcosts
      refine ih (x :: stack) y d B hy (List.nodup_cons.mpr ⟨hnew, hnodup⟩) (fun a ha => ?_) hcost
        (fun a ha => le_trans (hcosts a ha) hd) (by rw [List.length_cons]; omega)
      rcases List.mem_cons.mp ha with rfl | ha
      · exact hnodes a hout
      · exact hin a ha
    obtain ⟨B', hrun, hfollowed, htargets⟩ := foldlM_tryEdge hnext (hsource x) (out x) (fun e he => he) B hx hstack
    refine ⟨B', hrun, hfollowed, fun e he => ?_⟩
    rw [hfollowed.low x (le_of_eq hx), hx]
    exact htargets e he

/-! ## Offers -/

/-- What is kept after the offers `os`. -/
structure Settled (out : ν → List (Edge ν ι)) (top : Nat) (os : List (Offer ν ι)) (B : Best ν ι) : Prop where
  offered : ∀ o ∈ os, B.cost o.1 ≤ o.2.1
  closed : ∀ x, Closed out B x
  le_top : ∀ x, B.cost x ≤ top
  unset : ∀ x, B.mark x = .unset ↔ B.cost x = top
  direct : ∀ x a, B.mark x = .direct a → (x, B.cost x, a) ∈ os
  along : ∀ x e, B.mark x = .along e → e ∈ out e.source ∧ e.target = x ∧ B.cost x = B.cost e.source + e.weight
  /-- Costs passed on lead back to direct ones. -/
  grounded : WellFounded fun a b => ∃ e, B.mark b = .along e ∧ e.source = a

theorem offers_run {nodes : List ν} (hnodes : ∀ x, out x ≠ [] → x ∈ nodes)
    (hsource : ∀ x, ∀ e ∈ out x, e.source = x) {fuel : Nat} (hfuel : nodes.length ≤ fuel)
    (os : List (Offer ν ι)) (hP : ∀ o ∈ os, P o) (B : Best ν ι) (hclosed : ∀ x, Closed out B x)
    (hsound : Sound out top P B) :
    ∃ B', offers out fuel os B = some B' ∧ (∀ x, Closed out B' x) ∧ Sound out top P B' ∧
      (∀ x, B'.cost x ≤ B.cost x) ∧ ∀ o ∈ os, B'.cost o.1 ≤ o.2.1 := by
  induction os generalizing B with
  | nil => exact ⟨B, rfl, hclosed, hsound, fun _ => le_refl _, fun o h => absurd h List.not_mem_nil⟩
  | cons o os ih =>
    obtain ⟨x, c, a⟩ := o
    have hone : ∃ B₁, offer out fuel B (x, c, a) = some B₁ ∧ Followed out top P 0 B B₁ ∧ B₁.cost x ≤ c := by
      unfold offer
      by_cases hless : c < B.cost x
      · have hput : Sound out top P B → Sound out top P (B.put x c (.direct a)) := fun h =>
          h.put hless (fun h => by cases h) (fun a' h => by cases h; exact hP _ List.mem_cons_self)
            fun e h => by cases h
        rw [if_pos hless]
        dsimp only
        by_cases hout : out x = []
        · refine ⟨_, by rw [hout]; rfl, followed_put hless (Nat.zero_le c) hput (.refl _) ?_, ?_⟩
          · intro e he
            rw [hout] at he
            exact absurd he List.not_mem_nil
          · rw [Best.cost_put_self]
        · have hends : FollowsFrom out top P x c (B.put x c (.direct a)) (follow out fuel x c (B.put x c (.direct a))) :=
            follow_ends hnodes hsource fuel [] x c (B.put x c (.direct a)) hout (List.nodup_singleton x)
              (fun b hb => absurd hb List.not_mem_nil) (Best.cost_put_self ..) (fun b hb => absurd hb List.not_mem_nil)
              (by simpa using hfuel)
          obtain ⟨B', hrun, hfollowed, hx⟩ := hends
          refine ⟨B', ?_, followed_put hless (Nat.zero_le c) hput hfollowed hx, ?_⟩
          · rw [if_neg (by simpa using hout)]
            exact hrun
          · exact le_of_le_of_eq (hfollowed.le x) (Best.cost_put_self ..)
      · rw [if_neg hless]
        exact ⟨B, rfl, .refl B, not_lt.mp hless⟩
    obtain ⟨B₁, hrun₁, hfollowed, hcost⟩ := hone
    obtain ⟨B₂, hrun₂, hclosed₂, hsound₂, hle, hos⟩ := ih (fun o ho => hP o (List.mem_cons_of_mem _ ho)) B₁
      (fun y => hfollowed.closed y (.inr (hclosed y))) (hfollowed.sound hsound)
    refine ⟨B₂, ?_, hclosed₂, hsound₂, fun y => le_trans (hle y) (hfollowed.le y), ?_⟩
    · unfold offers
      rw [List.foldlM_cons, hrun₁]
      exact hrun₂
    · rintro o ho
      rcases List.mem_cons.mp ho with rfl | ho
      · exact le_trans (hle x) hcost
      · exact hos o ho

omit [DecidableEq ν] in
theorem Sound.grounded {B : Best ν ι} (hB : Sound out top P B) :
    WellFounded fun a b => ∃ e, B.mark b = .along e ∧ e.source = a := by
  obtain ⟨rank, hB⟩ := hB
  refine Subrelation.wf (r := InvImage (Prod.Lex (· < ·) (· < ·)) fun x => (B.cost x, rank x)) ?_
    (InvImage.wf _ (WellFounded.prod_lex wellFounded_lt wellFounded_lt))
  rintro a b ⟨e, he, rfl⟩
  obtain ⟨-, -, hle, hrank⟩ := hB.along b e he
  by_cases heq : B.cost e.source = B.cost b
  · change Prod.Lex _ _ (B.cost e.source, rank e.source) (B.cost b, rank b)
    rw [heq]
    exact Prod.Lex.right _ (hrank (by omega))
  · exact Prod.Lex.left _ _ (by omega)

/-- **The offers come through, and what is kept is the best they and the edges come to.** -/
theorem offers_settled (top : Nat) {nodes : List ν} (hnodes : ∀ x, out x ≠ [] → x ∈ nodes)
    (hsource : ∀ x, ∀ e ∈ out x, e.source = x) {fuel : Nat} (hfuel : nodes.length ≤ fuel)
    (os : List (Offer ν ι)) :
    ∃ B, offers out fuel os (Best.empty top) = some B ∧ Settled out top os B := by
  have hempty : ∀ x, Closed out (Best.empty top : Best ν ι) x := fun x e _ => Nat.le_add_right top _
  have hsound : Sound out top (fun o => o ∈ os) (Best.empty top : Best ν ι) := sound_empty
  obtain ⟨B, hrun, hclosed, hsound, -, hoffered⟩ := offers_run hnodes hsource hfuel os (fun o ho => ho) (Best.empty top)
    hempty hsound
  have hgrounded := hsound.grounded
  obtain ⟨rank, hbacked⟩ := hsound
  refine ⟨B, hrun, hoffered, hclosed, hbacked.le_top, hbacked.unset, hbacked.direct, fun x e he => ?_, hgrounded⟩
  obtain ⟨hmem, htarget, hle, -⟩ := hbacked.along x e he
  have := hclosed e.source e hmem
  rw [htarget] at this
  exact ⟨hmem, htarget, by omega⟩

end Bbq.Lib.Relax
