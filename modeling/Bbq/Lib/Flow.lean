import Mathlib.Logic.Relation
import Mathlib.Data.List.Forall2

/-!
# Programs as graphs, and what is seen of them

A program is a graph of points. At each stands an instruction, with where it may branch to and what is behind it; what
it does to the state, and which of the two it goes on to, is the machine's. Calls keep where they return to. Jumps
that do nothing else are silent: what is seen of a run is the states its other instructions meet, and how it ends.

* `Shows`: what is seen in some number of steps.
* `Simulates`: each point of one graph does what a point of the other does, silent jumps aside. A silent jump may be
  left out, also one that leads back to itself.
* **`Simulates.shows`**: what is seen of the first program is then seen of the second. `same_of_simulates` is both
  ways.

Nothing here is about a particular machine.
-/

namespace Bbq.Lib.Flow

variable {α ν ν' σ ω : Type}

/-- What an instruction does: the state it leaves, and where it goes on. -/
inductive Effect (σ ω : Type)
  /-- Behind it. -/
  | next (s : σ)
  | jump (s : σ)
  /-- At the target, to come back behind it. -/
  | call (s : σ)
  | ret (s : σ)
  | stop (w : ω)

/-- The two ways on are exchanged. -/
inductive Opposite : Effect σ ω → Effect σ ω → Prop
  | jump (s : σ) : Opposite (.next s) (.jump s)
  | next (s : σ) : Opposite (.jump s) (.next s)
  | ret (s : σ) : Opposite (.ret s) (.ret s)
  | stop (w : ω) : Opposite (.stop w) (.stop w)

/-- It goes on at neither of the two. -/
inductive Leaving : Effect σ ω → Prop
  | ret (s : σ) : Leaving (.ret s)
  | stop (w : ω) : Leaving (.stop w)

structure Machine (α σ ω : Type) where
  exec : α → σ → Effect σ ω
  silent : α → Bool
  exec_silent : ∀ a, silent a = true → ∀ s, exec a s = .jump s

/-- An instruction in its place. -/
structure Point (α ν : Type) where
  instr : α
  target : Option ν
  next : ν

/-- There may be nothing at a place. -/
abbrev FlowGraph (α ν : Type) := ν → Option (Point α ν)

def Point.map (f : ν → ν') (p : Point α ν) : Point α ν' := ⟨p.instr, p.target.map f, f p.next⟩

structure Config (ν σ : Type) where
  pos : ν
  /-- Where the calls that are not over return to. -/
  back : List ν
  state : σ

inductive End (σ ω : Type)
  | stop (w : ω)
  /-- A return from no call. -/
  | done (s : σ)
  /-- At a place where there is nothing. -/
  | lost

/-! ## Runs -/

def goTo (back : List ν) (s : σ) : Option ν → Config ν σ ⊕ End σ ω
  | some t => .inl ⟨t, back, s⟩
  | none => .inr .lost

def Point.after (p : Point α ν) (back : List ν) : Effect σ ω → Config ν σ ⊕ End σ ω
  | .next s => .inl ⟨p.next, back, s⟩
  | .jump s => goTo back s p.target
  | .call s => goTo (p.next :: back) s p.target
  | .ret s =>
    match back with
    | [] => .inr (.done s)
    | r :: back => .inl ⟨r, back, s⟩
  | .stop w => .inr (.stop w)

section

variable (m : Machine α σ ω)

/-- What is seen at a point. -/
def Point.seen (p : Point α ν) (s : σ) : List σ := if m.silent p.instr then [] else [s]

/-- What is seen in so many steps, with the end if it is reached. -/
def run (F : FlowGraph α ν) : Nat → Config ν σ → List σ × Option (End σ ω)
  | 0, _ => ([], none)
  | k + 1, c =>
    match F c.pos with
    | none => ([], some .lost)
    | some p =>
      match p.after c.back (m.exec p.instr c.state) with
      | .inl c' => (p.seen m c.state ++ (run F k c').1, (run F k c').2)
      | .inr e => (p.seen m c.state, some e)

/-- What may be seen from `x`. -/
def Shows (F : FlowGraph α ν) (x : ν) (s : σ) (r : List σ × Option (End σ ω)) : Prop := ∃ k, run m F k ⟨x, [], s⟩ = r

/-- The same is seen of both. -/
def Same (F : FlowGraph α ν) (x : ν) (F' : FlowGraph α ν') (x' : ν') : Prop := ∀ s r, Shows m F x s r ↔ Shows m F' x' s r

/-- Silent jumps lead from the one to the other. -/
def Slides (F : FlowGraph α ν) : ν → ν → Prop :=
  Relation.ReflTransGen fun x y => ∃ p, F x = some p ∧ m.silent p.instr = true ∧ p.target = some y

/-- Silent jumps lead to what `R` relates. -/
def Near (F' : FlowGraph α ν') (R : ν → ν' → Prop) (x : ν) (x' : ν') : Prop := ∃ y, Slides m F' x' y ∧ R x y

end

/-- Both do the same, up to how their places are related. -/
inductive Matches (m : Machine α σ ω) (N : ν → ν' → Prop) (p : Point α ν) (p' : Point α ν') : Prop
  | same (hinstr : p'.instr = p.instr) (htarget : Option.Rel N p.target p'.target) (hnext : N p.next p'.next)
  | opposite (t : ν) (t' : ν') (hexec : ∀ s, Opposite (m.exec p.instr s) (m.exec p'.instr s))
      (ht : p.target = some t) (ht' : p'.target = some t') (hnext : N p.next t') (htarget : N t p'.next)
  | leaving (hinstr : p'.instr = p.instr) (hexec : ∀ s, Leaving (m.exec p.instr s))

/-- What is at a point of `F` is done at the related points of `F'`. -/
structure Simulates (m : Machine α σ ω) (F : FlowGraph α ν) (F' : FlowGraph α ν') (R : ν → ν' → Prop) : Prop where
  lost : ∀ {x x'}, R x x' → F x = none → F' x' = none
  silent : ∀ {x x' p}, R x x' → F x = some p → m.silent p.instr = true →
    ∃ t, p.target = some t ∧ Near m F' R t x'
  loud : ∀ {x x' p}, R x x' → F x = some p → m.silent p.instr = false →
    ∃ p', F' x' = some p' ∧ m.silent p'.instr = false ∧ Matches m (Near m F' R) p p'

variable {m : Machine α σ ω} {F : FlowGraph α ν} {F' : FlowGraph α ν'} {R : ν → ν' → Prop}

theorem Near.of (x : ν) {x' : ν'} (h : R x x') : Near m F' R x x' := ⟨x', .refl, h⟩

theorem Slides.trans {x y z : ν} (h : Slides m F x y) (h' : Slides m F y z) : Slides m F x z :=
  Relation.ReflTransGen.trans h h'

theorem Slides.jump {x t : ν} {p : Point α ν} (hp : F x = some p) (hs : m.silent p.instr = true)
    (ht : p.target = some t) : Slides m F x t := .single ⟨p, hp, hs, ht⟩

section

variable {x : ν} {p : Point α ν} {back : List ν} {s : σ}

theorem run_lost (hp : F x = none) (k : Nat) : run m F (k + 1) ⟨x, back, s⟩ = ([], some .lost) := by
  unfold run
  dsimp only
  rw [hp]

theorem run_go (hp : F x = some p) {c : Config ν σ} (hc : p.after back (m.exec p.instr s) = .inl c) (k : Nat) :
    run m F (k + 1) ⟨x, back, s⟩ = (p.seen m s ++ (run m F k c).1, (run m F k c).2) := by
  conv_lhs => unfold run
  dsimp only
  rw [hp]
  dsimp only
  rw [hc]

theorem run_over (hp : F x = some p) {e : End σ ω} (he : p.after back (m.exec p.instr s) = .inr e) (k : Nat) :
    run m F (k + 1) ⟨x, back, s⟩ = (p.seen m s, some e) := by
  unfold run
  dsimp only
  rw [hp]
  dsimp only
  rw [he]

theorem run_silent (hp : F x = some p) (hs : m.silent p.instr = true) {t : ν} (ht : p.target = some t) (k : Nat) :
    run m F (k + 1) ⟨x, back, s⟩ = run m F k ⟨t, back, s⟩ := by
  have hafter : p.after back (m.exec p.instr s) = .inl ⟨t, back, s⟩ := by
    rw [m.exec_silent _ hs, Point.after, ht, goTo]
  rw [run_go hp hafter, Point.seen, if_pos hs, List.nil_append]

end

/-- Silent jumps are not seen. -/
theorem Slides.run {x y : ν} (h : Slides m F x y) :
    ∃ n, ∀ k back (s : σ), run m F (n + k) ⟨x, back, s⟩ = run m F k ⟨y, back, s⟩ := by
  induction h using Relation.ReflTransGen.head_induction_on with
  | refl => exact ⟨0, fun k back s => by rw [Nat.zero_add]⟩
  | head hstep _ ih =>
    obtain ⟨p, hp, hsilent, htarget⟩ := hstep
    obtain ⟨n, hn⟩ := ih
    refine ⟨n + 1, fun k back s => ?_⟩
    rw [show n + 1 + k = n + k + 1 by omega, run_silent hp hsilent htarget, hn]

/-! ## Simulation -/

/-- A step led to related places, or both are over. -/
inductive Both (N : ν → ν' → Prop) : Config ν σ ⊕ End σ ω → Config ν' σ ⊕ End σ ω → Prop
  | go {x : ν} {x' : ν'} {back : List ν} {back' : List ν'} (s : σ) (hpos : N x x')
      (hback : List.Forall₂ N back back') : Both N (.inl ⟨x, back, s⟩) (.inl ⟨x', back', s⟩)
  | finish (e : End σ ω) : Both N (.inr e) (.inr e)

variable {N : ν → ν' → Prop} {p : Point α ν} {p' : Point α ν'} {back : List ν} {back' : List ν'}

theorem both_goTo {t : Option ν} {t' : Option ν'} (h : Option.Rel N t t') (hback : List.Forall₂ N back back')
    (s : σ) : Both N (goTo back s t : Config ν σ ⊕ End σ ω) (goTo back' s t') := by
  cases h with
  | some h => exact .go s h hback
  | none => exact .finish _

theorem both_ret (hback : List.Forall₂ N back back') (s : σ) :
    Both N (p.after back (.ret s : Effect σ ω)) (p'.after back' (.ret s)) := by
  cases hback with
  | nil => exact .finish _
  | cons h hback => exact .go s h hback

/-- What the machine does at two points that match. -/
theorem Matches.both (h : Matches m N p p') (hback : List.Forall₂ N back back') (s : σ) :
    Both N (p.after back (m.exec p.instr s)) (p'.after back' (m.exec p'.instr s)) := by
  cases h with
  | same hinstr htarget hnext =>
    rw [hinstr]
    cases m.exec p.instr s with
    | next s' => exact .go s' hnext hback
    | jump s' => exact both_goTo htarget hback s'
    | call s' => exact both_goTo htarget (.cons hnext hback) s'
    | ret s' => exact both_ret hback s'
    | stop w => exact .finish _
  | opposite t t' hexec ht ht' hnext htarget =>
    have hopp := hexec s
    generalize m.exec p.instr s = e at hopp ⊢
    generalize m.exec p'.instr s = e' at hopp ⊢
    cases hopp with
    | jump s' =>
      rw [Point.after, Point.after, ht']
      exact .go s' hnext hback
    | next s' =>
      rw [Point.after, Point.after, ht]
      exact .go s' htarget hback
    | ret s' => exact both_ret hback s'
    | stop w => exact .finish _
  | leaving hinstr hexec =>
    have hleave := hexec s
    rw [hinstr]
    generalize m.exec p.instr s = e at hleave ⊢
    cases hleave with
    | ret s' => exact both_ret hback s'
    | stop w => exact .finish _

/-- **What is seen in a run of one is seen in a run of the other.** -/
theorem Simulates.run (h : Simulates m F F' R) (k : Nat) {x : ν} {x' : ν'} {back : List ν} {back' : List ν'} (s : σ)
    (hpos : Near m F' R x x') (hback : List.Forall₂ (Near m F' R) back back') :
    ∃ k', run m F' k' ⟨x', back', s⟩ = run m F k ⟨x, back, s⟩ := by
  induction k generalizing x x' back back' s with
  | zero => exact ⟨0, rfl⟩
  | succ k ih =>
    obtain ⟨y, hslides, hR⟩ := hpos
    obtain ⟨n, hn⟩ := hslides.run
    cases hF : F x with
    | none => exact ⟨n + 1, by rw [hn, run_lost (h.lost hR hF), run_lost hF]⟩
    | some p =>
      cases hs : m.silent p.instr with
      | true =>
        obtain ⟨t, ht, hnear⟩ := h.silent hR hF hs
        -- the place of the other is that of the jump's target already
        obtain ⟨z, hslides', hR'⟩ := hnear
        obtain ⟨k', hk'⟩ := ih s ⟨z, hslides.trans hslides', hR'⟩ hback
        exact ⟨k', by rw [hk', run_silent hF hs ht]⟩
      | false =>
        obtain ⟨p', hF', hs', hmatch⟩ := h.loud hR hF hs
        have hboth := hmatch.both hback s
        have hseen : p'.seen m s = p.seen m s := by rw [Point.seen, Point.seen, hs, hs']
        generalize ha : p.after back (m.exec p.instr s) = a at hboth
        generalize ha' : p'.after back' (m.exec p'.instr s) = a' at hboth
        cases hboth with
        | go s' hpos' hback' =>
          obtain ⟨k', hk'⟩ := ih s' hpos' hback'
          exact ⟨n + (k' + 1), by rw [hn, run_go hF' ha', run_go hF ha, hk', hseen]⟩
        | finish e => exact ⟨n + 1, by rw [hn, run_over hF' ha', run_over hF ha, hseen]⟩

theorem Simulates.shows (h : Simulates m F F' R) {x : ν} {x' : ν'} (hx : Near m F' R x x') {s : σ}
    {r : List σ × Option (End σ ω)} (hr : Shows m F x s r) : Shows m F' x' s r := by
  obtain ⟨k, rfl⟩ := hr
  exact h.run k s hx .nil

/-- **Both ways.** -/
theorem same_of_simulates (R : ν → ν' → Prop) (R' : ν' → ν → Prop) (h : Simulates m F F' R)
    (h' : Simulates m F' F R') {x : ν} {x' : ν'} (hx : Near m F' R x x') (hx' : Near m F R' x' x) :
    Same m F x F' x' :=
  fun _ _ => ⟨h.shows hx, h'.shows hx'⟩

theorem Same.trans {ν'' : Type} {F'' : FlowGraph α ν''} {x : ν} {x' : ν'} {x'' : ν''} (h : Same m F x F' x')
    (h' : Same m F' x' F'' x'') : Same m F x F'' x'' :=
  fun s r => (h s r).trans (h' s r)

theorem Same.refl (x : ν) : Same m F x F x := fun _ _ => Iff.rfl

theorem Same.symm {x : ν} {x' : ν'} (h : Same m F x F' x') : Same m F' x' F x := fun s r => (h s r).symm

/-! ## Changes to a program -/

theorem Opposite.symm {e e' : Effect σ ω} (h : Opposite e e') : Opposite e' e := by
  cases h with
  | jump s => exact .next s
  | next s => exact .jump s
  | ret s => exact .ret s
  | stop w => exact .stop w

theorem rel_imp {β β' : Type} {Q Q' : β → β' → Prop} (hQ : ∀ b b', Q b b' → Q' b b') {t : Option β}
    {t' : Option β'} (h : Option.Rel Q t t') : Option.Rel Q' t t' := by
  cases h with
  | some h => exact .some (hQ _ _ h)
  | none => exact .none

theorem rel_map {β β' : Type} {Q : β → β' → Prop} {f : β → β'} (hQ : ∀ b, Q b (f b)) (t : Option β) :
    Option.Rel Q t (t.map f) := by
  cases t with
  | none => exact .none
  | some b => exact .some (hQ b)

theorem rel_refl {β : Type} {Q : β → β → Prop} (hQ : ∀ b, Q b b) (t : Option β) : Option.Rel Q t t := by
  cases t with
  | none => exact .none
  | some b => exact .some (hQ b)

theorem Matches.mono {N' : ν → ν' → Prop} (hN : ∀ x x', N x x' → N' x x') (h : Matches m N p p') :
    Matches m N' p p' := by
  cases h with
  | same hinstr htarget hnext => exact .same hinstr (rel_imp hN htarget) (hN _ _ hnext)
  | opposite t t' hexec ht ht' hnext htarget => exact .opposite t t' hexec ht ht' (hN _ _ hnext) (hN _ _ htarget)
  | leaving hinstr hexec => exact .leaving hinstr hexec

theorem Matches.symm {N' : ν' → ν → Prop} (hN : ∀ x x', N x x' → N' x' x) (h : Matches m N p p') :
    Matches m N' p' p := by
  cases h with
  | same hinstr htarget hnext =>
    refine .same hinstr.symm ?_ (hN _ _ hnext)
    generalize p.target = t, p'.target = t' at htarget ⊢
    cases htarget with
    | some h => exact .some (hN _ _ h)
    | none => exact .none
  | opposite t t' hexec ht ht' hnext htarget =>
    exact .opposite t' t (fun s => (hexec s).symm) ht' ht (hN _ _ htarget) (hN _ _ hnext)
  | leaving hinstr hexec => exact .leaving hinstr.symm fun s => by rw [hinstr]; exact hexec s

theorem matches_refl {N : ν → ν → Prop} (hN : ∀ x, N x x) (p : Point α ν) : Matches m N p p :=
  .same rfl (rel_refl hN _) (hN _)

section

variable [DecidableEq ν] {G : FlowGraph α ν} {i : ν} {q : Point α ν}

/-- Silent jumps lead from what a place did go on to to what it goes on to now: the place may be changed so. -/
theorem same_of_update (q' : Point α ν) (htargets : ∀ x p, G x = some p → m.silent p.instr = true → p.target.isSome)
    (hi : G i = some q) (hs : m.silent q'.instr = m.silent q.instr) (hmatch : Matches m (Slides m G) q q')
    (hsilent : m.silent q.instr = true → ∃ t t', q.target = some t ∧ q'.target = some t' ∧ Slides m G t t') (x : ν) :
    Same m G x (Function.update G i (some q')) x := by
  refine same_of_simulates (Slides m G) Eq ⟨?_, ?_, ?_⟩ ⟨?_, ?_, ?_⟩ (.of x .refl) (.of x rfl)
  · intro x x' hslides hnone
    obtain rfl | ⟨y, ⟨p, hp, -, -⟩, -⟩ := hslides.cases_head
    · rw [Function.update_of_ne (by rintro rfl; rw [hi] at hnone; cases hnone), hnone]
    · rw [hnone] at hp
      cases hp
  · intro x x' p hslides hp hps
    obtain rfl | ⟨y, ⟨p', hp', -, ht⟩, hrest⟩ := hslides.cases_head
    · by_cases hx : x = i
      · subst hx
        obtain rfl := Option.some.inj (hp.symm.trans hi)
        obtain ⟨t, t', ht, ht', hslides⟩ := hsilent hps
        exact ⟨t, ht, t', .jump (Function.update_self ..) (hs.trans hps) ht', hslides⟩
      · obtain ⟨t, ht⟩ := Option.isSome_iff_exists.mp (htargets x p hp hps)
        refine ⟨t, ht, t, .jump ?_ hps ht, .refl⟩
        rw [Function.update_of_ne hx, hp]
    · obtain rfl := Option.some.inj (hp.symm.trans hp')
      exact ⟨y, ht, .of _ hrest⟩
  · intro x x' p hslides hp hps
    obtain rfl | ⟨y, ⟨p', hp', hps', -⟩, -⟩ := hslides.cases_head
    · by_cases hx : x = i
      · subst hx
        obtain rfl := Option.some.inj (hp.symm.trans hi)
        exact ⟨q', Function.update_self .., hs.trans hps, hmatch.mono fun x x' h => .of x h⟩
      · exact ⟨p, by rw [Function.update_of_ne hx, hp], hps, matches_refl (fun x => .of x .refl) p⟩
    · obtain rfl := Option.some.inj (hp.symm.trans hp')
      rw [hps] at hps'
      cases hps'
  · rintro x _ rfl hnone
    by_cases hx : x = i
    · subst hx
      rw [Function.update_self] at hnone
      cases hnone
    · rwa [Function.update_of_ne hx] at hnone
  · rintro x _ p rfl hp hps
    by_cases hx : x = i
    · subst hx
      rw [Function.update_self] at hp
      obtain rfl := Option.some.inj hp
      obtain ⟨t, t', ht, ht', hslides⟩ := hsilent (hs.symm.trans hps)
      exact ⟨t', ht', t', (Slides.jump hi (hs.symm.trans hps) ht).trans hslides, rfl⟩
    · rw [Function.update_of_ne hx] at hp
      obtain ⟨t, ht⟩ := Option.isSome_iff_exists.mp (htargets x p hp hps)
      exact ⟨t, ht, t, .jump hp hps ht, rfl⟩
  · rintro x _ p rfl hp hps
    by_cases hx : x = i
    · subst hx
      rw [Function.update_self] at hp
      obtain rfl := Option.some.inj hp
      exact ⟨q, hi, hs.symm.trans hps, hmatch.symm fun t t' h => ⟨t', h, rfl⟩⟩
    · rw [Function.update_of_ne hx] at hp
      exact ⟨p, hp, hps, matches_refl (fun x => .of x rfl) p⟩

/-- A silent jump to an instruction that leaves may be that instruction itself. -/
theorem same_of_leaving (q' : Point α ν) (htargets : ∀ x p, G x = some p → m.silent p.instr = true → p.target.isSome)
    (hi : G i = some q) (hs : m.silent q.instr = true) {j : ν} (hj : q.target = some j) {r : Point α ν}
    (hr : G j = some r) (hrs : m.silent r.instr = false) (hinstr : q'.instr = r.instr)
    (hleaving : ∀ s, Leaving (m.exec r.instr s)) (x : ν) : Same m G x (Function.update G i (some q')) x := by
  have hij : j ≠ i := by
    rintro rfl
    obtain rfl := Option.some.inj (hi.symm.trans hr)
    rw [hs] at hrs
    cases hrs
  -- the other way the jump itself is related to nothing, and its target to the instruction in its place
  have hnear : ∀ x, Near m G (fun x' x => x' = i ∧ x = j ∨ x' ≠ i ∧ x = x') x x := fun x => by
    by_cases hx : x = i
    · subst hx
      exact ⟨j, .jump hi hs hj, .inl ⟨rfl, rfl⟩⟩
    · exact .of x (.inr ⟨hx, rfl⟩)
  refine same_of_simulates (fun x x' => x = x' ∨ x = j ∧ x' = i)
    (fun x' x => x' = i ∧ x = j ∨ x' ≠ i ∧ x = x') ⟨?_, ?_, ?_⟩ ⟨?_, ?_, ?_⟩ (.of x (.inl rfl)) (hnear x)
  · rintro x x' (rfl | ⟨rfl, rfl⟩) hnone
    · rw [Function.update_of_ne (by rintro rfl; rw [hi] at hnone; cases hnone), hnone]
    · rw [hr] at hnone
      cases hnone
  · rintro x x' p (rfl | ⟨rfl, rfl⟩) hp hps
    · by_cases hx : x = i
      · subst hx
        obtain rfl := Option.some.inj (hp.symm.trans hi)
        exact ⟨j, hj, .of j (.inr ⟨rfl, rfl⟩)⟩
      · obtain ⟨t, ht⟩ := Option.isSome_iff_exists.mp (htargets x p hp hps)
        refine ⟨t, ht, t, .jump ?_ hps ht, .inl rfl⟩
        rw [Function.update_of_ne hx, hp]
    · obtain rfl := Option.some.inj (hp.symm.trans hr)
      rw [hps] at hrs
      cases hrs
  · rintro x x' p (rfl | ⟨rfl, rfl⟩) hp hps
    · have hx : x ≠ i := by
        rintro rfl
        obtain rfl := Option.some.inj (hp.symm.trans hi)
        rw [hps] at hs
        cases hs
      exact ⟨p, by rw [Function.update_of_ne hx, hp], hps, matches_refl (fun x => .of x (.inl rfl)) p⟩
    · obtain rfl := Option.some.inj (hp.symm.trans hr)
      exact ⟨q', Function.update_self .., by rw [hinstr, hrs], .leaving hinstr hleaving⟩
  · rintro x' x (⟨rfl, rfl⟩ | ⟨hx, rfl⟩) hnone
    · rw [Function.update_self] at hnone
      cases hnone
    · rwa [Function.update_of_ne hx] at hnone
  · rintro x' x p (⟨rfl, rfl⟩ | ⟨hx, rfl⟩) hp hps
    · rw [Function.update_self] at hp
      obtain rfl := Option.some.inj hp
      rw [hinstr, hrs] at hps
      cases hps
    · rw [Function.update_of_ne hx] at hp
      obtain ⟨t, ht⟩ := Option.isSome_iff_exists.mp (htargets x p hp hps)
      obtain ⟨y, hslides, hy⟩ := hnear t
      exact ⟨t, ht, y, (Slides.jump hp hps ht).trans hslides, hy⟩
  · rintro x' x p (⟨rfl, rfl⟩ | ⟨hx, rfl⟩) hp hps
    · rw [Function.update_self] at hp
      obtain rfl := Option.some.inj hp
      exact ⟨r, hr, hrs, .leaving hinstr.symm fun s => by rw [hinstr]; exact hleaving s⟩
    · rw [Function.update_of_ne hx] at hp
      exact ⟨p, hp, hps, matches_refl hnear p⟩

/-- A silent jump may be left out, if its target comes to lie in its place. -/
theorem same_of_omit (f : ν → ν') (htargets : ∀ x p, G x = some p → m.silent p.instr = true → p.target.isSome)
    (hi : G i = some q) (hs : m.silent q.instr = true) {j : ν} (hj : q.target = some j) (hij : j ≠ i) (hf : f j = f i)
    (hF : ∀ x, x ≠ i → F' (f x) = (G x).map (Point.map f)) (x : ν) : Same m G x F' (f x) := by
  have hnear : ∀ x, Near m G (fun x' x => x' = f x ∧ x ≠ i) (f x) x := fun x => by
    by_cases hx : x = i
    · subst hx
      exact ⟨j, .jump hi hs hj, hf.symm, hij⟩
    · exact .of _ ⟨rfl, hx⟩
  refine same_of_simulates (fun x x' => x' = f x) (fun x' x => x' = f x ∧ x ≠ i) ⟨?_, ?_, ?_⟩ ⟨?_, ?_, ?_⟩
    (.of x rfl) (hnear x)
  · rintro x _ rfl hnone
    rw [hF x (by rintro rfl; rw [hi] at hnone; cases hnone), hnone]
    rfl
  · rintro x _ p rfl hp hps
    obtain ⟨t, ht⟩ := Option.isSome_iff_exists.mp (htargets x p hp hps)
    by_cases hx : x = i
    · subst hx
      obtain rfl := Option.some.inj (hp.symm.trans hi)
      exact ⟨j, hj, .of j hf.symm⟩
    · refine ⟨t, ht, f t, .jump (p := p.map f) ?_ hps ?_, rfl⟩
      · rw [hF x hx, hp]
        rfl
      · rw [Point.map, ht]
        rfl
  · rintro x _ p rfl hp hps
    have hx : x ≠ i := by
      rintro rfl
      obtain rfl := Option.some.inj (hp.symm.trans hi)
      rw [hps] at hs
      cases hs
    exact ⟨p.map f, by rw [hF x hx, hp]; rfl, hps, .same rfl (rel_map (fun t => .of t rfl) p.target) (.of _ rfl)⟩
  · rintro _ x ⟨rfl, hx⟩ hnone
    rw [hF x hx] at hnone
    exact Option.map_eq_none_iff.mp hnone
  · rintro _ x p' ⟨rfl, hx⟩ hp hps
    rw [hF x hx, Option.map_eq_some_iff] at hp
    obtain ⟨p, hp, rfl⟩ := hp
    obtain ⟨t, ht⟩ := Option.isSome_iff_exists.mp (htargets x p hp hps)
    obtain ⟨y, hslides, hy⟩ := hnear t
    exact ⟨f t, by rw [Point.map, ht]; rfl, y, (Slides.jump hp hps ht).trans hslides, hy⟩
  · rintro _ x p' ⟨rfl, hx⟩ hp hps
    rw [hF x hx, Option.map_eq_some_iff] at hp
    obtain ⟨p, hp, rfl⟩ := hp
    have hmatch : Matches m (fun x x' => Near m G (fun x' x => x' = f x ∧ x ≠ i) x' x) p (p.map f) :=
      .same rfl (rel_map (f := f) hnear p.target) (hnear _)
    exact ⟨p, hp, hps, hmatch.symm fun _ _ h => h⟩

end

/-- **The same program in other places.** `P` holds of the places it comes to. -/
theorem same_of_map (P : ν → Prop) (f : ν → ν') (hF : ∀ x, P x → F' (f x) = (F x).map (Point.map f))
    (hsilent : ∀ x p, F x = some p → m.silent p.instr = true → p.target.isSome)
    (hP : ∀ x p, P x → F x = some p → P p.next ∧ ∀ t ∈ p.target, P t) {x : ν} (hx : P x) : Same m F x F' (f x) := by
  refine same_of_simulates (fun x x' => P x ∧ x' = f x) (fun x' x => P x ∧ x' = f x) ⟨?_, ?_, ?_⟩ ⟨?_, ?_, ?_⟩
    (.of x ⟨hx, rfl⟩) (.of (f x) ⟨hx, rfl⟩)
  · rintro x _ ⟨hx, rfl⟩ hn
    rw [hF x hx, hn]
    rfl
  · rintro x _ p ⟨hx, rfl⟩ hp hs
    obtain ⟨t, ht⟩ := Option.isSome_iff_exists.mp (hsilent x p hp hs)
    have hjump : Slides m F' (f x) (f t) := by
      refine .jump (p := p.map f) ?_ hs ?_
      · rw [hF x hx, hp]
        rfl
      · rw [Point.map, ht]
        rfl
    exact ⟨t, ht, f t, hjump, (hP x p hx hp).2 t ht, rfl⟩
  · rintro x _ p ⟨hx, rfl⟩ hp hs
    refine ⟨p.map f, by rw [hF x hx, hp]; rfl, hs, .same rfl ?_ (.of _ ⟨(hP x p hx hp).1, rfl⟩)⟩
    have htarget := (hP x p hx hp).2
    change Option.Rel _ p.target (p.target.map f)
    cases ht : p.target with
    | none => exact .none
    | some t => exact .some (.of _ ⟨htarget t ht, rfl⟩)
  · rintro _ x ⟨hx, rfl⟩ hn
    rw [hF x hx] at hn
    exact Option.map_eq_none_iff.mp hn
  · rintro _ x _ ⟨hx, rfl⟩ hp hs
    rw [hF x hx, Option.map_eq_some_iff] at hp
    obtain ⟨p, hp, rfl⟩ := hp
    obtain ⟨t, ht⟩ := Option.isSome_iff_exists.mp (hsilent x p hp hs)
    exact ⟨f t, by rw [Point.map, ht]; rfl, t, .jump hp hs ht, (hP x p hx hp).2 t ht, rfl⟩
  · rintro _ x _ ⟨hx, rfl⟩ hp hs
    rw [hF x hx, Option.map_eq_some_iff] at hp
    obtain ⟨p, hp, rfl⟩ := hp
    refine ⟨p, hp, hs, .same rfl ?_ (.of _ ⟨(hP x p hx hp).1, rfl⟩)⟩
    have htarget := (hP x p hx hp).2
    change Option.Rel _ (p.target.map f) p.target
    cases ht : p.target with
    | none => exact .none
    | some t => exact .some (.of _ ⟨htarget t ht, rfl⟩)

end Bbq.Lib.Flow
