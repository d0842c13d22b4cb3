import Bbq.Burg.Rewrite

/-!
# Labelling when allocations are refused

What `labelWith` does to the context, whatever is refused.

* `Extends` is what every part of the rewriter keeps to: the log grows, the first error stays, and a refusal
  has raised one. `Still` parts raise errors and do nothing else.
* `Grown` states have their nodes' shape, except that children at the end may be missing. The dynamic
  programme ends on them, too, unless a guard reads a child that is not there (`burgDp_of_reads`).
* `Cached` is the invariant of the cache: without an error, the state of every node that is not open is a
  label of all that hangs below it, and no node has been programmed twice. A node is `Inside` while its
  children, which are smaller, are being labelled.
* **`labelWith_ends`**: labelling ends the same on all fuel that suffices. It keeps the invariant, or a guard
  read a child that is not there.
-/

namespace Bbq.Burg

open Bbq.Lib Bbq.Lib.Relax

variable {ν : Type}

/-! ## Logs -/

namespace Event

def error? : Event ν → Ctx
  | .raised error => some error
  | _ => none

def programme? : Event ν → Option (Node ν × List State)
  | .programmed u ss => some (u, ss)
  | _ => none

def handed? : Event ν → Option (ν × State)
  | .handed n s => some (n, s)
  | _ => none

def ran? : Event ν → Option (Rule × Node ν)
  | .ran r u => some (r, u)
  | _ => none

end Event

/-- The first error that was raised. -/
def firstRaised (log : List (Event ν)) : Ctx := log.findSome? Event.error?

/-- The calls of the dynamic programme: nodes, and states of their children. -/
def programmes (log : List (Event ν)) : List (Node ν × List State) := log.filterMap Event.programme?

def handings (log : List (Event ν)) : List (ν × State) := log.filterMap Event.handed?

/-- The actions, in the order they started. -/
def actionsOf (log : List (Event ν)) : List (Rule × Node ν) := log.filterMap Event.ran?

/-- No action starts after an error has been raised. -/
def Quiet : List (Event ν) → Prop
  | [] => True
  | .raised _ :: log => actionsOf log = []
  | _ :: log => Quiet log

@[simp] theorem firstRaised_append (a b : List (Event ν)) : firstRaised (a ++ b) = (firstRaised a).or (firstRaised b) :=
  List.findSome?_append

@[simp] theorem programmes_append (a b : List (Event ν)) : programmes (a ++ b) = programmes a ++ programmes b :=
  List.filterMap_append

@[simp] theorem handings_append (a b : List (Event ν)) : handings (a ++ b) = handings a ++ handings b :=
  List.filterMap_append

@[simp] theorem actionsOf_append (a b : List (Event ν)) : actionsOf (a ++ b) = actionsOf a ++ actionsOf b :=
  List.filterMap_append

theorem quiet_of_idle {log : List (Event ν)} (h : actionsOf log = []) : Quiet log := by
  induction log with
  | nil => trivial
  | cons e log ih =>
    cases e with
    | raised error => exact h
    | programmed u ss => exact ih h
    | handed n s => exact ih h
    | ran r u => cases h

/-- Where an error has been raised, what follows has to be idle. -/
theorem Quiet.append {a b : List (Event ν)} (ha : Quiet a) (hb : Quiet b) (h : firstRaised a ≠ none → actionsOf b = []) :
    Quiet (a ++ b) := by
  induction a with
  | nil => exact hb
  | cons e a ih =>
    cases e with
    | raised error =>
      change actionsOf (a ++ b) = []
      rw [actionsOf_append, ha, h nofun, List.append_nil]
    | programmed u ss => exact ih ha h
    | handed n s => exact ih ha h
    | ran r u => exact ih ha h

/-! ## What a part of the rewriter adds -/

section Extends

variable (refuses : Nat → Bool)

/-- From `c` to `c'` the rewriter does `new`: every refusal raises an error, and the first error stays. -/
structure Extends (c c' : Context ν) (new : List (Event ν)) : Prop where
  log : c'.log = c.log ++ new
  error : c'.error = c.error.or (firstRaised new)
  asked : c.asked ≤ c'.asked
  refused : ∀ k, c.asked ≤ k → k < c'.asked → refuses k = true → firstRaised new ≠ none

variable {refuses} {c c₁ c₂ : Context ν} {new new₁ new₂ : List (Event ν)}

theorem Extends.refl (c : Context ν) : Extends refuses c c [] where
  log := (List.append_nil _).symm
  error := by cases c.error <;> rfl
  asked := le_refl _
  refused := fun k h h' => absurd (lt_of_le_of_lt h h') (lt_irrefl _)

theorem Extends.trans (h₁ : Extends refuses c c₁ new₁) (h₂ : Extends refuses c₁ c₂ new₂) :
    Extends refuses c c₂ (new₁ ++ new₂) where
  log := by rw [h₂.log, h₁.log, List.append_assoc]
  error := by rw [h₂.error, h₁.error, firstRaised_append, Option.or_assoc]
  asked := le_trans h₁.asked h₂.asked
  refused := fun k hk hk' hrefused hnone => by
    rw [firstRaised_append, Option.or_eq_none_iff] at hnone
    rcases lt_or_ge k c₁.asked with hlt | hge
    · exact h₁.refused k hk hlt hrefused hnone.1
    · exact h₂.refused k hge hk' hrefused hnone.2

/-- Errors are not cleared. -/
theorem Extends.unset (h : Extends refuses c c₁ new) (hnone : c₁.error = none) :
    c.error = none ∧ firstRaised new = none := by
  rwa [h.error, Option.or_eq_none_iff] at hnone

theorem extends_note (c : Context ν) {e : Event ν} (he : e.error? = none) : Extends refuses c (c.note e) [e] where
  log := rfl
  error := by
    have hfirst : firstRaised [e] = none := by simp only [firstRaised, List.findSome?_cons, he, List.findSome?_nil]
    rw [hfirst, Option.or_none]
    rfl
  asked := le_refl _
  refused := fun k h h' => absurd (lt_of_le_of_lt h h') (lt_irrefl _)

theorem extends_setError (c : Context ν) (msg arg : String) :
    Extends refuses c (c.setError msg arg) [.raised (msg, arg)] where
  log := rfl
  error := rfl
  asked := le_refl _
  refused := fun _ _ _ _ => nofun

/-- Requests that are granted. -/
theorem extends_granted {n : Nat} (h : ∀ k, c.asked ≤ k → k < n → refuses k = false) (hn : c.asked ≤ n) :
    Extends refuses c { c with asked := n } [] where
  log := (List.append_nil _).symm
  error := by cases c.error <;> rfl
  asked := hn
  refused := fun k hk hk' hrefused => by rw [h k hk hk'] at hrefused; cases hrefused

/-- A refusal with its error, after requests that are granted or not. -/
theorem extends_refused {n : Nat} (hn : c.asked ≤ n) (msg arg : String) :
    Extends refuses c (Context.setError { c with asked := n } msg arg) [.raised (msg, arg)] where
  log := rfl
  error := rfl
  asked := hn
  refused := fun _ _ _ _ => nofun

variable (refuses) in
/-- From `c` to `c'` errors may be raised, and nothing else is done. -/
structure Still (c c' : Context ν) (new : List (Event ν)) : Prop extends Extends refuses c c' new where
  unprogrammed : programmes new = []
  unhanded : handings new = []
  idle : actionsOf new = []

theorem Still.programmes_log (h : Still refuses c c₁ new) : programmes c₁.log = programmes c.log := by
  rw [h.log, programmes_append, h.unprogrammed, List.append_nil]

variable (refuses) in
theorem still_refl (c : Context ν) : Still refuses c c [] := ⟨.refl c, rfl, rfl, rfl⟩

theorem still_granted {n : Nat} (h : ∀ k, c.asked ≤ k → k < n → refuses k = false) (hn : c.asked ≤ n) :
    Still refuses c { c with asked := n } [] := ⟨extends_granted h hn, rfl, rfl, rfl⟩

theorem still_refused {n : Nat} (hn : c.asked ≤ n) (msg arg : String) :
    Still refuses c (Context.setError { c with asked := n } msg arg) [.raised (msg, arg)] :=
  ⟨extends_refused hn msg arg, rfl, rfl, rfl⟩

variable (refuses) in
theorem still_raise (c : Context ν) (raised : Ctx) : ∃ new, Still refuses c (c.raise raised) new := by
  cases raised with
  | none => exact ⟨[], still_refl refuses c⟩
  | some error => exact ⟨_, extends_setError c error.1 error.2, rfl, rfl, rfl⟩

theorem error_setError (c : Context ν) (msg arg : String) : (c.setError msg arg).error ≠ none := fun hnone => by
  change c.error.or (some (msg, arg)) = none at hnone
  rw [Option.or_eq_none_iff] at hnone
  cases hnone.2

end Extends

/-! ## States as they are made -/

mutual

/-- A state made for the node. Of its children, those at the end may be missing. -/
inductive Grown : Node ν → State → Prop
  | mk {op : String} {data : ν} {us : List (Node ν)} {table : Table} {ss : List State} :
      table.Ranged → GrownAll us ss → Grown (.mk op data us) (.mk op table ss)

inductive GrownAll : List (Node ν) → List State → Prop
  | stop {us : List (Node ν)} : GrownAll us []
  | cons {u : Node ν} {us : List (Node ν)} {s : State} {ss : List State} :
      Grown u s → GrownAll us ss → GrownAll (u :: us) (s :: ss)

end

theorem GrownAll.tail {us : List (Node ν)} {ss : List State} (h : GrownAll us ss) : GrownAll us.tail ss.tail := by
  cases h with
  | stop => exact .stop
  | cons _ hs => exact hs

theorem GrownAll.forall₂ {us : List (Node ν)} {ss : List State} (h : GrownAll us ss) (hlen : ss.length = us.length) :
    List.Forall₂ Grown us ss := by
  induction us generalizing ss with
  | nil =>
    obtain rfl := List.length_eq_zero_iff.mp hlen
    exact .nil
  | cons u us ih =>
    cases h with
    | stop => cases hlen
    | cons hu hus => exact .cons hu (ih hus (Nat.succ.inj hlen))

theorem init_ranged : Table.init.Ranged := fun _ => ⟨maxCost, rfl, le_refl _⟩

theorem Grown.ranged {u : Node ν} {s : State} (h : Grown u s) : s.table.Ranged := by
  cases h with
  | mk hranged _ => exact hranged

theorem ranged_grown {vs : List (Goal ν)} {ws : List (State × String)} (h : LeavesAlike Grown vs ws) :
    ∀ w ∈ ws, w.1.table.Ranged := by
  induction h with
  | nil => nofun
  | cons hv _ ih =>
    intro w hw
    rcases List.mem_cons.mp hw with rfl | hw
    · exact hv.1.ranged
    · exact ih w hw

/-- What the states have, the nodes have. -/
def LeavesWithin (vs : Option (List (Goal ν))) (ws : Option (List (State × String))) : Prop :=
  ∀ l, ws = some l → ∃ k, vs = some k ∧ LeavesAlike Grown k l

theorem leavesWithin_append {here rest : Option (List (Goal ν))} {here' rest' : Option (List (State × String))}
    (h : LeavesWithin here here') (hs : LeavesWithin rest rest') :
    LeavesWithin (here.bind fun leaves => rest.map fun rest => leaves ++ rest)
      (here'.bind fun leaves => rest'.map fun rest => leaves ++ rest) := by
  intro l hl
  obtain ⟨first, hfirst, hl⟩ := Option.bind_eq_some_iff.mp hl
  obtain ⟨last, hlast, rfl⟩ := Option.map_eq_some_iff.mp hl
  obtain ⟨vs, rfl, hvs⟩ := h first hfirst
  obtain ⟨vs', rfl, hvs'⟩ := hs last hlast
  exact ⟨vs ++ vs', rfl, List.rel_append hvs hvs'⟩

theorem leavesWithin_head {us : List (Node ν)} {ss : List State} (h : GrownAll us ss) (name : String) :
    LeavesWithin (us.head?.map fun u => [(u, name)]) (ss.head?.map fun s => [(s, name)]) := by
  intro l hl
  cases h with
  | stop => cases hl
  | cons hu _ =>
    cases hl
    exact ⟨_, rfl, .cons ⟨hu, rfl⟩ .nil⟩

theorem leavesWithin_nil : LeavesWithin (some ([] : List (Goal ν))) (some []) := by
  intro l hl
  cases hl
  exact ⟨[], rfl, .nil⟩

section Walk

variable {G : Spec} {us : List (Node ν)} {ss : List State}

theorem innerLeaves_within (ps : List TreePattern) (h : GrownAll us ss) :
    LeavesWithin (innerLeaves G ps us) (innerLeaves G ps ss) := by
  induction ps generalizing us ss with
  | nil => exact leavesWithin_nil
  | cons p ps ih =>
    refine leavesWithin_append ?_ (ih h.tail)
    split
    · exact leavesWithin_head h p.name
    · exact leavesWithin_nil

theorem outerLeaves_within (ps : List TreePattern) (h : GrownAll us ss) :
    LeavesWithin (outerLeaves G Node.children ps us) (outerLeaves G State.children ps ss) := by
  induction ps generalizing us ss with
  | nil => exact leavesWithin_nil
  | cons p ps ih =>
    refine leavesWithin_append ?_ (ih h.tail)
    split
    · exact leavesWithin_head h p.name
    · split
      · exact leavesWithin_nil
      · cases h with
        | stop => nofun
        | cons hu _ =>
          cases hu with
          | mk _ hchildren => exact innerLeaves_within p.children hchildren

variable {op : String} {data : ν}

/-- What is visited of states that are half-built is in range, and no more than is visited of the nodes. -/
theorem fitting_of_grown (hs : GrownAll us ss) (hlen : ss.length = us.length) (hfits : Fits G (.mk op data us)) :
    ∀ r ∈ rulesByTerm G op, Fitting G (.mk op .init ss) r := by
  intro r hr
  have hwithin : LeavesWithin (visited G Node.children r.pattern (.mk op data us))
      (visited G State.children r.pattern (.mk op .init ss)) := by
    intro l hl
    obtain ⟨leaves, hleaves, rfl⟩ := Option.map_eq_some_iff.mp hl
    obtain ⟨vs, hvs, halike⟩ := outerLeaves_within r.pattern.children hs leaves hleaves
    refine ⟨vs ++ extras G Node.children r.pattern (.mk op data us), ?_, List.rel_append halike ?_⟩
    · unfold visited
      change Option.map _ (outerLeaves G Node.children r.pattern.children us) = _
      rw [hvs, Option.map_some]
    · unfold extras
      rw [List.forall₂_map_left_iff, List.forall₂_map_right_iff]
      exact (List.forall₂_drop _ (hs.forall₂ hlen)).imp fun _ _ hab => ⟨hab, rfl⟩
  constructor
  · intro ws hws
    obtain ⟨vs, -, halike⟩ := hwithin ws hws
    exact ranged_grown halike
  · intro ws hws
    obtain ⟨vs, hvs, halike⟩ := hwithin ws hws
    have hsum := hfits r hr vs hvs
    rwa [halike.length_eq] at hsum

variable (G) in
/-- No guard of a rule over the operator reads a child that is not there. -/
def Reads (u : Node ν) (ss : List State) : Prop :=
  ∀ r ∈ rulesByTerm G u.op, ∃ b, patternGuard G State.view r.pattern (.mk u.op .init ss) = some b

variable {eval : String → Node ν → Bool}

theorem burgDp_mono {fuel fuel' : Nat} (hle : fuel ≤ fuel') {ctx : Ctx} {r : State × Ctx}
    (h : burgDp G eval true fuel (.mk op data us) ss ctx = some r) :
    burgDp G eval true fuel' (.mk op data us) ss ctx = some r := by
  unfold burgDp at h ⊢
  dsimp only at h ⊢
  cases hrules : rulesByTerm G (Node.mk op data us).op with
  | nil => rwa [hrules] at h
  | cons r rs =>
    rw [hrules] at h
    obtain ⟨table, htable, hr⟩ := Option.map_eq_some_iff.mp h
    exact Option.map_eq_some_iff.mpr ⟨table, dp_mono hle htable, hr⟩

/-- **The programme at a node** whose children have states, whole or not. -/
theorem burgDp_of_reads (eval : String → Node ν → Bool) (hG : Small G) (hs : GrownAll us ss) (hlen : ss.length = us.length) (hfits : Fits G (.mk op data us))
    (hreads : Reads G (.mk op data us) ss) :
    ∃ table raised, (∀ fuel, G.rules.length < fuel →
        burgDp G eval true fuel (.mk op data us) ss none = some (.mk op table ss, raised)) ∧
      Programmed G (fun r u => r.holds eval u) (.mk op data us) (.mk op table ss) := by
  obtain ⟨B, hrun, hsettled⟩ := @dp_settled G (fun r => r.holds eval (.mk op data us)) hG _ _
    (fitting_of_grown hs hlen hfits) hreads _ (Nat.lt_succ_self _)
  have hknown : true = false → rulesByTerm G op ≠ [] := nofun
  obtain ⟨raised, hdp⟩ := burgDp_of_table none hknown hrun
  exact ⟨toTable B, raised, fun fuel hfuel => burgDp_mono hfuel hdp, B, rfl, hsettled⟩

theorem burgDp_eq_none (hreads : ¬ Reads G (.mk op data us) ss) (fuel : Nat) :
    burgDp G eval true fuel (.mk op data us) ss none = none := by
  by_contra hne
  obtain ⟨⟨s, raised⟩, hdp⟩ := Option.ne_none_iff_exists'.mp hne
  obtain ⟨-, table, -, htable⟩ := burgDp_eq_some hdp
  exact hreads (reads_of_dp htable)

end Walk

/-! ## Labelling -/

section Labels

variable [DecidableEq ν] (G : Spec) (eval : String → Node ν → Bool) (refuses : Nat → Bool) (Γ : Graph ν)

/-- From `c` to `c'` nodes are labelled. -/
structure Labels (c c' : Context ν) (new : List (Event ν)) : Prop extends Extends refuses c c' new where
  idle : actionsOf new = []
  unhanded : handings new = []
  full : ∀ p ∈ programmes new, GrownAll p.1.children p.2 ∧ p.2.length = p.1.children.length

/-- They are, and no guard has read a child that is not there. -/
def Advances (c c' : Context ν) : Prop := ∃ new, Labels refuses c c' new ∧ ∀ p ∈ programmes new, Reads G p.1 p.2

/-- The last guard to be asked has read a child that is not there. -/
def Fails (c c' : Context ν) : Prop := ∃ new, Labels refuses c c' new ∧ ∃ p ∈ programmes new, ¬ Reads G p.1 p.2

/-- How often the programme has been called at the node. -/
def times (n : ν) (log : List (Event ν)) : Nat := ((programmes log).map fun p => p.1.data).count n

/-- The node has been labelled in the run so far, and all below it. -/
def Done (c : Context ν) (u : Node ν) (s : State) : Prop :=
  Labelled (Programmed G fun r u => r.holds eval u) u s ∧ (u, s.children) ∈ programmes c.log

/-- What the cache holds: states for their nodes. Those of nodes smaller than `K`, which are not being
labelled, are done as long as there is no error. -/
structure Cached (K : Nat) (c : Context ν) : Prop where
  grown : ∀ n s, c.cache n = some s → Grown (Γ.node n) s
  done : c.error = none → ∀ n s, sizeOf (Γ.node n) < K → c.cache n = some s → Done G eval c (Γ.node n) s
  once : c.error = none → ∀ n, times n c.log ≤ 1
  never : c.error = none → ∀ n, c.cache n = none → times n c.log = 0

/-- Labelling what is smaller than `k` leaves larger nodes alone and forgets no node. -/
structure Frame (k : Nat) (c c' : Context ν) : Prop where
  larger : ∀ n, k ≤ sizeOf (Γ.node n) → c'.cache n = c.cache n
  same : ∀ n, k ≤ sizeOf (Γ.node n) → times n c'.log = times n c.log
  stays : ∀ n, c.cache n ≠ none → c'.cache n ≠ none

variable {G eval refuses Γ} {c c₁ c₂ : Context ν} {new new₁ new₂ : List (Event ν)}

theorem times_congr {log log' : List (Event ν)} (h : programmes log = programmes log') (n : ν) :
    times n log = times n log' := by rw [times, times, h]

omit [DecidableEq ν] in
theorem Labels.trans (h₁ : Labels refuses c c₁ new₁) (h₂ : Labels refuses c₁ c₂ new₂) :
    Labels refuses c c₂ (new₁ ++ new₂) where
  toExtends := h₁.toExtends.trans h₂.toExtends
  idle := by rw [actionsOf_append, h₁.idle, h₂.idle]; rfl
  unhanded := by rw [handings_append, h₁.unhanded, h₂.unhanded]; rfl
  full := fun p hp => by
    rw [programmes_append, List.mem_append] at hp
    exact hp.elim (h₁.full p) (h₂.full p)

omit [DecidableEq ν] in
theorem Still.advances (h : Still refuses c c₁ new) : Advances G refuses c c₁ :=
  ⟨new, ⟨h.toExtends, h.idle, h.unhanded, fun p hp => by rw [h.unprogrammed] at hp; cases hp⟩,
    fun p hp => by rw [h.unprogrammed] at hp; cases hp⟩

omit [DecidableEq ν] in
theorem Advances.refl (c : Context ν) : Advances G refuses c c := (still_refl refuses c).advances

omit [DecidableEq ν] in
theorem Advances.trans (h₁ : Advances G refuses c c₁) (h₂ : Advances G refuses c₁ c₂) : Advances G refuses c c₂ := by
  obtain ⟨new₁, hlabels₁, hreads₁⟩ := h₁
  obtain ⟨new₂, hlabels₂, hreads₂⟩ := h₂
  refine ⟨new₁ ++ new₂, hlabels₁.trans hlabels₂, fun p hp => ?_⟩
  rw [programmes_append, List.mem_append] at hp
  exact hp.elim (hreads₁ p) (hreads₂ p)

omit [DecidableEq ν] in
theorem Advances.fails (h₁ : Advances G refuses c c₁) (h₂ : Fails G refuses c₁ c₂) : Fails G refuses c c₂ := by
  obtain ⟨new₁, hlabels₁, -⟩ := h₁
  obtain ⟨new₂, hlabels₂, p, hp, hno⟩ := h₂
  refine ⟨new₁ ++ new₂, hlabels₁.trans hlabels₂, p, ?_, hno⟩
  rw [programmes_append]
  exact List.mem_append_right _ hp

omit [DecidableEq ν] in
/-- Errors are not cleared. -/
theorem Advances.unset (h : Advances G refuses c c₁) (hnone : c₁.error = none) : c.error = none := by
  obtain ⟨new, hlabels, -⟩ := h
  exact (hlabels.unset hnone).1

omit [DecidableEq ν] in
theorem Done.later {u : Node ν} {s : State} (h : Done G eval c u s) (hadv : Advances G refuses c c₁) :
    Done G eval c₁ u s := by
  obtain ⟨new, hlabels, -⟩ := hadv
  refine ⟨h.1, ?_⟩
  rw [hlabels.log, programmes_append]
  exact List.mem_append_left _ h.2

theorem Frame.trans {k : Nat} (h₁ : Frame Γ k c c₁) (h₂ : Frame Γ k c₁ c₂) : Frame Γ k c c₂ where
  larger := fun n hn => (h₂.larger n hn).trans (h₁.larger n hn)
  same := fun n hn => (h₂.same n hn).trans (h₁.same n hn)
  stays := fun n hn => h₂.stays n (h₁.stays n hn)

theorem Still.frame {k : Nat} (h : Still refuses c c₁ new) (hcache : c₁.cache = c.cache) : Frame Γ k c c₁ where
  larger := fun n _ => by rw [hcache]
  same := fun n _ => times_congr h.programmes_log n
  stays := fun n hn => by rwa [hcache]

theorem Frame.mono {k K : Nat} (h : Frame Γ k c c₁) (hk : k ≤ K) : Frame Γ K c c₁ where
  larger := fun n hn => h.larger n (le_trans hk hn)
  same := fun n hn => h.same n (le_trans hk hn)
  stays := h.stays

/-- What a request and its error leave of the cache. -/
theorem Cached.still {K : Nat} (h : Cached G eval Γ K c) (hstill : Still refuses c c₁ new) (hcache : c₁.cache = c.cache) :
    Cached G eval Γ K c₁ where
  grown := fun n s hs => h.grown n s (by rwa [hcache] at hs)
  done := fun hnone n s hn hs => (h.done (hstill.unset hnone).1 n s hn (by rwa [hcache] at hs)).later hstill.advances
  once := fun hnone n => times_congr hstill.programmes_log n ▸ h.once (hstill.unset hnone).1 n
  never := fun hnone n hn => times_congr hstill.programmes_log n ▸ h.never (hstill.unset hnone).1 n (hcache ▸ hn)

/-! ### One request, one write -/

variable (refuses) in
omit [DecidableEq ν] in
theorem labelAlloc_spec (us : List (Node ν)) (c : Context ν) :
    (∃ new, Still refuses c (labelAlloc refuses us c).2 new) ∧ (labelAlloc refuses us c).2.cache = c.cache ∧
      ((labelAlloc refuses us c).1 = true → (labelAlloc refuses us c).2.error ≠ none) := by
  unfold labelAlloc Context.ask
  cases hfirst : refuses c.asked with
  | true => exact ⟨⟨_, still_refused (Nat.le_succ _) _ _⟩, rfl, fun _ => error_setError _ _ _⟩
  | false =>
    have hone : ∀ k, c.asked ≤ k → k < c.asked + 1 → refuses k = false := fun k hk hk' => by
      obtain rfl : k = c.asked := by omega
      exact hfirst
    dsimp only
    split
    · exact ⟨⟨_, still_granted hone (Nat.le_succ _)⟩, rfl, nofun⟩
    · cases hsecond : refuses (c.asked + 1) with
      | true => exact ⟨⟨_, still_refused (Nat.le_add_right _ 2) _ _⟩, rfl, fun _ => error_setError _ _ _⟩
      | false =>
        refine ⟨⟨_, still_granted (fun k hk hk' => ?_) (Nat.le_add_right _ 2)⟩, rfl, nofun⟩
        rcases Nat.lt_or_ge k (c.asked + 1) with hlt | hge
        · exact hone k hk hlt
        · obtain rfl : k = c.asked + 1 := by omega
          exact hsecond

/-- A state is put into the cache, if there is one and nothing is refused. -/
theorem cacheStore_spec (cached : Bool) (id : ν) (s : State) (c : Context ν) (c' : Context ν)
    (h : c' = if cached then c.cacheStore refuses id s else c) :
    (∃ new, Still refuses c c' new) ∧ (∀ n, n ≠ id → c'.cache n = c.cache n) ∧
      (c'.cache id = c.cache id ∨ c'.cache id = some s) ∧ (cached = true → c'.error = none → c'.cache id = some s) := by
  subst h
  cases cached with
  | false => exact ⟨⟨[], still_refl refuses c⟩, fun _ _ => rfl, .inl rfl, nofun⟩
  | true =>
    rw [if_pos rfl]
    unfold Context.cacheStore Context.ask
    cases hrefused : refuses c.asked with
    | true =>
      exact ⟨⟨_, still_refused (Nat.le_succ _) _ _⟩, fun _ _ => rfl, .inl rfl,
        fun _ hnone => absurd hnone (error_setError _ _ _)⟩
    | false =>
      have hgranted : Still refuses c { c with asked := c.asked + 1 } [] :=
        still_granted (fun k hk hk' => by
          obtain rfl : k = c.asked := by omega
          exact hrefused) (Nat.le_succ _)
      exact ⟨⟨[], ⟨hgranted.log, hgranted.error, hgranted.asked, hgranted.refused⟩, rfl, rfl, rfl⟩,
        fun n hn => Function.update_of_ne hn _ _, .inr (Function.update_self _ _ _),
        fun _ _ => Function.update_self _ _ _⟩

variable (refuses) in
theorem write_spec (cached : Bool) (id : ν) (s : State) (c : Context ν) (c' : Context ν)
    (h : c' = if cached then c.write id s else c) :
    Still refuses c c' [] ∧ c'.log = c.log ∧ c'.error = c.error ∧ (∀ n, n ≠ id → c'.cache n = c.cache n) ∧
      (cached = true → c'.cache id = if (c.cache id).isSome then some s else none) ∧
      (c.cache id ≠ none → c'.cache id ≠ none) := by
  subst h
  cases cached with
  | false => exact ⟨still_refl refuses c, rfl, rfl, fun _ _ => rfl, (fun h => by cases h), fun h => h⟩
  | true =>
    have hid : (c.write id s).cache id = if (c.cache id).isSome then some s else none := by
      unfold Context.write
      cases hcache : c.cache id <;> simp [hcache]
    have hstill := still_refl refuses c
    rw [if_pos rfl]
    refine ⟨⟨⟨hstill.log, hstill.error, hstill.asked, hstill.refused⟩, rfl, rfl, rfl⟩, rfl, rfl,
      fun n hn => if_neg fun h => hn h.1, fun _ => hid, fun h => ?_⟩
    rw [hid]
    cases hcache : c.cache id with
    | none => exact absurd hcache h
    | some _ => exact Option.some_ne_none s

/-! ### While a node is labelled -/

variable (G eval refuses Γ) in
/-- The node `id` has been opened in `c`, and what is smaller has been labelled since. -/
structure Inside (cached : Bool) (id : ν) (c c' : Context ν) : Prop where
  advances : Advances G refuses c c'
  cached : cached = true → Cached G eval Γ (sizeOf (Γ.node id)) c'
  larger : ∀ n, n ≠ id → sizeOf (Γ.node id) ≤ sizeOf (Γ.node n) → c'.cache n = c.cache n
  same : ∀ n, sizeOf (Γ.node id) ≤ sizeOf (Γ.node n) → times n c'.log = times n c.log
  stays : ∀ n, c.cache n ≠ none → c'.cache n ≠ none

variable (G eval refuses Γ) in
/-- Nodes smaller than `k` have been labelled, and none of those smaller than `K` is open. -/
structure Comes (cached : Bool) (K k : Nat) (c c' : Context ν) : Prop where
  advances : Advances G refuses c c'
  cached : cached = true → Cached G eval Γ K c'
  frame : Frame Γ k c c'

section Inside

variable {cached : Bool} {id : ν} {K : Nat}

/-- The state is in the cache before it is labelled, and is not one of a smaller node. -/
theorem inside_open (hK : sizeOf (Γ.node id) < K) (hc : cached = true → Cached G eval Γ K c)
    (hstill₁ : Still refuses c c₁ new) (hcache₁ : c₁.cache = c.cache)
    (hc₂ : c₂ = if cached then c₁.cacheStore refuses id (.mk (Γ.node id).op .init []) else c₁) :
    Inside G eval refuses Γ cached id c c₂ := by
  obtain ⟨⟨new₂, hstill₂⟩, hother, hid, -⟩ := cacheStore_spec cached id _ c₁ c₂ hc₂
  have hstays : ∀ n, c₁.cache n ≠ none → c₂.cache n ≠ none := fun n hpresent => by
    by_cases hn : n = id
    · subst hn
      rcases hid with heq | heq
      · rwa [heq]
      · rw [heq]
        exact nofun
    · rwa [hother n hn]
  refine ⟨hstill₁.advances.trans hstill₂.advances, fun h => ?_, fun n hn _ => by rw [hother n hn, hcache₁],
    fun n _ => times_congr (hstill₂.programmes_log.trans hstill₁.programmes_log) n, fun n hn => hstays n (hcache₁ ▸ hn)⟩
  have h₁ := (hc h).still hstill₁ hcache₁
  refine ⟨fun n s hs => ?_, fun hnone n s hsize hs => ?_, fun hnone n => ?_, fun hnone n hn => ?_⟩
  · by_cases hn : n = id
    · subst hn
      rcases hid with heq | heq
      · exact h₁.grown n s (heq ▸ hs)
      · rw [heq, Option.some.injEq] at hs
        rw [← hs]
        cases Γ.node n with
        | mk op data us => exact .mk init_ranged .stop
    · exact h₁.grown n s (hother n hn ▸ hs)
  · have hn : n ≠ id := fun heq => absurd hsize (by rw [heq]; exact lt_irrefl _)
    exact (h₁.done (hstill₂.unset hnone).1 n s (lt_trans hsize hK) (hother n hn ▸ hs)).later hstill₂.advances
  · rw [times_congr hstill₂.programmes_log]
    exact h₁.once (hstill₂.unset hnone).1 n
  · rw [times_congr hstill₂.programmes_log]
    exact h₁.never (hstill₂.unset hnone).1 n (by_contra fun hpresent => hstays n hpresent hn)

theorem Inside.trans (h : Inside G eval refuses Γ cached id c c₁)
    (h' : Comes G eval refuses Γ cached (sizeOf (Γ.node id)) (sizeOf (Γ.node id)) c₁ c₂) :
    Inside G eval refuses Γ cached id c c₂ where
  advances := h.advances.trans h'.advances
  cached := h'.cached
  larger := fun n hn hsize => by rw [h'.frame.larger n hsize, h.larger n hn hsize]
  same := fun n hsize => by rw [h'.frame.same n hsize, h.same n hsize]
  stays := fun n hn => h'.frame.stays n (h.stays n hn)

/-- **A node is closed**: what the cache points to for it is written. -/
theorem Inside.close {c₃ : Context ν} {s : State} (h : Inside G eval refuses Γ cached id c c₁)
    (hc : cached = true → Cached G eval Γ K c) (hadv₂ : Advances G refuses c₁ c₂) (hcache₂ : c₂.cache = c₁.cache)
    (htimes₂ : ∀ n, n ≠ id → times n c₂.log = times n c₁.log)
    (hc₃ : c₃ = if cached then c₂.write id s else c₂) (hgrown : Grown (Γ.node id) s)
    (hdone : c₂.error = none → Done G eval c₂ (Γ.node id) s)
    (honce : cached = true → c₂.error = none → times id c₂.log ≤ 1 ∧ c₁.cache id ≠ none) :
    Comes G eval refuses Γ cached K (sizeOf (Γ.node id) + 1) c c₃ := by
  obtain ⟨hstill₃, hlog, herror, hother, hid, hkept⟩ := write_spec refuses cached id s c₂ c₃ hc₃
  have hadv := h.advances.trans (hadv₂.trans hstill₃.advances)
  have hother' : ∀ n, n ≠ id → c₃.cache n = c₁.cache n := fun n hn => by rw [hother n hn, hcache₂]
  refine ⟨hadv, fun hcached => ⟨fun n s' hs => ?_, fun hnone n s' hsize hs => ?_, fun hnone n => ?_, fun hnone n hn => ?_⟩,
    ⟨fun n hsize => ?_, fun n hsize => ?_, fun n hn => ?_⟩⟩
  · by_cases hn : n = id
    · subst hn
      rw [hid hcached] at hs
      split at hs
      · obtain rfl := Option.some.inj hs
        exact hgrown
      · cases hs
    · rw [hother' n hn] at hs
      exact (h.cached hcached).grown n s' hs
  · by_cases hn : n = id
    · subst hn
      rw [hid hcached] at hs
      split at hs
      · obtain rfl := Option.some.inj hs
        exact (hdone (herror ▸ hnone)).later hstill₃.advances
      · cases hs
    · rw [hother' n hn] at hs
      rcases lt_or_ge (sizeOf (Γ.node n)) (sizeOf (Γ.node id)) with hlt | hge
      · have hadv' := hadv₂.trans hstill₃.advances
        exact ((h.cached hcached).done (hadv'.unset hnone) n s' hlt hs).later hadv'
      · rw [h.larger n hn hge] at hs
        exact ((hc hcached).done (hadv.unset hnone) n s' hsize hs).later hadv
  · rw [hlog]
    by_cases hn : n = id
    · subst hn
      exact (honce hcached (herror ▸ hnone)).1
    · rw [htimes₂ n hn]
      exact (h.cached hcached).once (hadv₂.unset (herror ▸ hnone)) n
  · rw [hlog]
    have hne : n ≠ id := fun heq => by
      subst heq
      exact hkept (hcache₂ ▸ (honce hcached (herror ▸ hnone)).2) hn
    rw [htimes₂ n hne]
    exact (h.cached hcached).never (hadv₂.unset (herror ▸ hnone)) n (hother' n hne ▸ hn)
  · have hn : n ≠ id := fun heq => absurd hsize (by rw [heq]; omega)
    rw [hother' n hn, h.larger n hn (by omega)]
  · have hn : n ≠ id := fun heq => absurd hsize (by rw [heq]; omega)
    rw [hlog, htimes₂ n hn, h.same n (by omega)]
  · by_cases hne : n = id
    · subst hne
      exact hkept (hcache₂ ▸ h.stays n hn)
    · rw [hother' n hne]
      exact h.stays n hn

end Inside

omit [DecidableEq ν] in
theorem labels_programmed (c : Context ν) {u : Node ν} {ss : List State} (hs : GrownAll u.children ss)
    (hlen : ss.length = u.children.length) :
    Labels refuses c (c.note (.programmed u ss)) [.programmed u ss] where
  toExtends := extends_note c rfl
  idle := rfl
  unhanded := rfl
  full := fun p hp => by
    obtain rfl := List.mem_singleton.mp hp
    exact ⟨hs, hlen⟩

variable (refuses) in
/-- The programme is called, and may raise an error. -/
theorem programmed_spec (c : Context ν) {u : Node ν} {ss : List State} (hs : GrownAll u.children ss)
    (hlen : ss.length = u.children.length) (hreads : Reads G u ss) (raised : Ctx) (c' : Context ν)
    (h : c' = (c.note (.programmed u ss)).raise raised) :
    Advances G refuses c c' ∧ c'.cache = c.cache ∧ (u, ss) ∈ programmes c'.log ∧
      (∀ n, n ≠ u.data → times n c'.log = times n c.log) ∧ times u.data c'.log = times u.data c.log + 1 := by
  subst h
  obtain ⟨new, hraised⟩ := still_raise refuses (c.note (.programmed u ss)) raised
  have hnote : Advances G refuses c (c.note (.programmed u ss)) :=
    ⟨_, labels_programmed c hs hlen, fun p hp => by
      obtain rfl := List.mem_singleton.mp hp
      exact hreads⟩
  have hlog : programmes ((c.note (.programmed u ss)).raise raised).log = programmes c.log ++ [(u, ss)] := by
    rw [hraised.programmes_log, Context.note, programmes_append]
    rfl
  refine ⟨hnote.trans hraised.advances, by cases raised <;> rfl, ?_, fun n hn => ?_, ?_⟩
  · rw [hlog]
    exact List.mem_append_right _ (List.mem_singleton.mpr rfl)
  · rw [times, times, hlog, List.map_append, List.count_append, List.map_singleton, List.count_singleton,
      if_neg (by simpa using Ne.symm hn)]
    rfl
  · rw [times, times, hlog, List.map_append, List.count_append, List.map_singleton, List.count_singleton_self]

/-! ### Nodes and their children -/

variable (G eval refuses Γ) in
/-- Labelling a node ends well, or in a guard that reads a child that is not there. -/
def LabelEnds (cached : Bool) (K : Nat) (u : Node ν) (c : Context ν) :
    Except (Context ν) (Option State × Context ν) → Prop
  | .error c' => Fails G refuses c c'
  | .ok (o, c') => Comes G eval refuses Γ cached K (sizeOf u + 1) c c' ∧ (∀ s, o = some s → Grown u s) ∧
      (c'.error = none → ∃ s, o = some s ∧ Done G eval c' u s ∧ (cached = true → c'.cache u.data ≠ none) ∧
        (cached = false → times u.data c'.log = times u.data c.log + 1))

variable (G eval refuses Γ) in
def ChildrenEnd (cached : Bool) (K : Nat) (us : List (Node ν)) (c : Context ν) :
    Except (Context ν) (List State × Bool × Context ν) → Prop
  | .error c' => Fails G refuses c c'
  | .ok (ss, whole, c') => Comes G eval refuses Γ cached K K c c' ∧ GrownAll us ss ∧
      (whole = true → ss.length = us.length) ∧ (whole = false → c'.error ≠ none) ∧
      (c'.error = none → LabelledAll (Programmed G fun r u => r.holds eval u) us ss)

mutual

/-- **Labelling a node**, by induction on what hangs below it. More fuel makes no difference. -/
theorem labelWith_ends (eval : String → Node ν → Bool) (refuses : Nat → Bool) (hG : Small G)
    (hfits : ∀ n, Fits G (Γ.node n)) (cached : Bool) :
    ∀ (u : Node ν) (c : Context ν) (K : Nat), u = Γ.node u.data → sizeOf u < K → (cached = true → Cached G eval Γ K c) →
      ∃ out, (∀ fuel, G.rules.length < fuel → labelWith G eval refuses fuel cached u c = out) ∧
        LabelEnds G eval refuses Γ cached K u c out
  | .mk op id us, c, K, hu, hK, hc => by
    change Node.mk op id us = Γ.node id at hu
    cases hlook : (if cached = true then c.cache id else none) with
    | some s =>
      refine ⟨.ok (some s, c), fun fuel _ => by rw [labelWith, hlook], ?_⟩
      cases cached with
      | false => cases hlook
      | true =>
        rw [if_pos rfl] at hlook
        have hc := hc rfl
        refine ⟨⟨.refl c, fun _ => hc, (still_refl refuses c).frame rfl⟩, fun s' hs' => ?_,
          fun hnone => ⟨s, rfl, ?_, fun _ => ?_, nofun⟩⟩
        · obtain rfl := Option.some.inj hs'
          exact hu ▸ hc.grown id s hlook
        · exact hu ▸ hc.done hnone id s (hu ▸ hK) hlook
        · change c.cache id ≠ none
          rw [hlook]
          exact nofun
    | none =>
      obtain ⟨⟨new₁, hstill₁⟩, hcache₁, hrefused⟩ := labelAlloc_spec refuses us c
      generalize halloc : labelAlloc refuses us c = alloc at hstill₁ hcache₁ hrefused
      obtain ⟨refused, c₁⟩ := alloc
      dsimp only at hcache₁
      cases refused with
      | true =>
        refine ⟨.ok (none, c₁), fun fuel _ => by rw [labelWith, hlook, halloc], ⟨hstill₁.advances,
          fun h => (hc h).still hstill₁ hcache₁, hstill₁.frame hcache₁⟩, nofun, fun hnone => absurd hnone (hrefused rfl)⟩
      | false =>
        generalize hc₂ : (if cached = true then c₁.cacheStore refuses id (.mk op .init []) else c₁) = c₂
        have hopen : Inside G eval refuses Γ cached id c c₂ :=
          inside_open (hu ▸ hK) hc hstill₁ hcache₁ (by rw [← hu]; exact hc₂.symm)
        obtain ⟨out, hrun, hends⟩ := labelChildren_ends eval refuses hG hfits cached us c₂ (sizeOf (Γ.node id))
          (fun v hv => ⟨Γ.child id v (hu ▸ hv), hu ▸ sizeOf_child hv⟩) hopen.cached
        cases out with
        | error c₃ =>
          exact ⟨.error c₃, fun fuel hfuel => by simp only [labelWith, hlook, halloc, hc₂, hrun fuel hfuel],
            hopen.advances.fails hends⟩
        | ok out =>
          obtain ⟨ss, whole, c₃⟩ := out
          obtain ⟨hcomes, hgrown, hfull, hnull, hlabelled⟩ := hends
          have hinside := hopen.trans hcomes
          cases whole with
          | false =>
            -- a child was refused: the state stays in the cache half-built
            refine ⟨.ok (none, if cached then c₃.write id (.mk op .init ss) else c₃), fun fuel hfuel => by
              simp only [labelWith, hlook, halloc, hc₂, hrun fuel hfuel], ?_⟩
            have hlatched := hnull rfl
            have hclosed := hinside.close hc (.refl c₃) rfl (fun _ _ => rfl) rfl (hu ▸ Grown.mk init_ranged hgrown)
              (fun hnone => absurd hnone hlatched) (fun _ hnone => absurd hnone hlatched)
            obtain ⟨-, -, herror, -⟩ := write_spec refuses cached id (.mk op .init ss) c₃ _ rfl
            exact ⟨hu ▸ hclosed, nofun, fun hnone => absurd (herror ▸ hnone) hlatched⟩
          | true =>
            have hlen := hfull rfl
            by_cases hreads : Reads G (.mk op id us) ss
            · obtain ⟨table, raised, hdp, hprogrammed⟩ :=
                burgDp_of_reads eval hG hgrown hlen (hu ▸ hfits id) hreads
              generalize hc₄ : (c₃.note (.programmed (.mk op id us) ss)).raise raised = c₄
              refine ⟨.ok (some (.mk op table ss), if cached then c₄.write id (.mk op table ss) else c₄),
                fun fuel hfuel => by
                  simp only [labelWith, hlook, halloc, hc₂, hrun fuel hfuel, hdp fuel hfuel, hc₄], ?_⟩
              obtain ⟨hadv₄, hcache₄, hmem, hothers, hself⟩ :=
                programmed_spec refuses (u := .mk op id us) c₃ hgrown hlen hreads raised c₄ hc₄.symm
              have htimes : times id c₄.log = times id c.log + 1 := by rw [← hinside.same id (le_refl _)]; exact hself
              have hgrown' : Grown (.mk op id us) (.mk op table ss) := .mk hprogrammed.ranged hgrown
              have hdone : c₄.error = none → Done G eval c₄ (.mk op id us) (.mk op table ss) := fun hnone =>
                ⟨.mk hprogrammed (hlabelled (hadv₄.unset hnone)), hmem⟩
              have hpresent : cached = true → c₄.error = none → c₃.cache id ≠ none := fun h hnone => by
                obtain ⟨-, -, -, hstored⟩ := cacheStore_spec cached id _ c₁ c₂ hc₂.symm
                refine hcomes.frame.stays id ?_
                rw [hstored h ((hcomes.advances.trans hadv₄).unset hnone)]
                exact nofun
              have hclosed := hinside.close (s := .mk op table ss) hc hadv₄ hcache₄ hothers rfl (hu ▸ hgrown') (hu ▸ hdone)
                fun h hnone => ⟨by
                  rw [htimes, (hc h).never ((hinside.advances.trans hadv₄).unset hnone) id (by rwa [if_pos h] at hlook)],
                  hpresent h hnone⟩
              obtain ⟨hstill₅, hlog, herror, -, -, hkept⟩ :=
                write_spec refuses cached id (.mk op table ss) c₄ _ rfl
              refine ⟨hu ▸ hclosed, fun s hs => ?_, fun hnone => ⟨_, rfl, (hdone (herror ▸ hnone)).later hstill₅.advances,
                fun h => hkept (hcache₄ ▸ hpresent h (herror ▸ hnone)), fun _ => by rw [hlog]; exact htimes⟩⟩
              obtain rfl := Option.some.inj hs
              exact hgrown'
            · refine ⟨.error (c₃.note (.programmed (.mk op id us) ss)), fun fuel hfuel => by
                simp only [labelWith, hlook, halloc, hc₂, hrun fuel hfuel, burgDp_eq_none hreads fuel], ?_⟩
              exact hinside.advances.fails ⟨_, labels_programmed c₃ hgrown hlen, (.mk op id us, ss),
                List.mem_singleton.mpr rfl, hreads⟩

theorem labelChildren_ends (eval : String → Node ν → Bool) (refuses : Nat → Bool) (hG : Small G)
    (hfits : ∀ n, Fits G (Γ.node n)) (cached : Bool) :
    ∀ (us : List (Node ν)) (c : Context ν) (K : Nat), (∀ v ∈ us, v = Γ.node v.data ∧ sizeOf v < K) →
      (cached = true → Cached G eval Γ K c) →
      ∃ out, (∀ fuel, G.rules.length < fuel → labelChildren G eval refuses fuel cached us c = out) ∧
        ChildrenEnd G eval refuses Γ cached K us c out
  | [], c, K, _, hc => by
    refine ⟨.ok ([], true, c), fun fuel _ => by rw [labelChildren], ?_⟩
    exact ⟨⟨.refl c, hc, (still_refl refuses c).frame rfl⟩, .stop, fun _ => rfl, nofun, fun _ => .nil⟩
  | u :: us, c, K, hus, hc => by
    obtain ⟨hu, hK⟩ := hus u List.mem_cons_self
    obtain ⟨out, hrun₁, hends⟩ := labelWith_ends eval refuses hG hfits cached u c K hu hK hc
    cases out with
    | error c₁ => exact ⟨.error c₁, fun fuel hfuel => by rw [labelChildren, hrun₁ fuel hfuel], hends⟩
    | ok out =>
      obtain ⟨o, c₁⟩ := out
      obtain ⟨⟨hadv₁, hcached₁, hframe₁⟩, hgrown₁, hdone₁⟩ := hends
      cases o with
      | none =>
        have hlatched : c₁.error ≠ none := fun hnone => by
          obtain ⟨s, hs, -⟩ := hdone₁ hnone
          cases hs
        exact ⟨.ok ([], false, c₁), fun fuel hfuel => by rw [labelChildren, hrun₁ fuel hfuel],
          ⟨hadv₁, hcached₁, hframe₁.mono hK⟩, .stop, nofun, fun _ => hlatched, fun hnone => absurd hnone hlatched⟩
      | some s =>
        obtain ⟨out, hrun₂, hrest⟩ := labelChildren_ends eval refuses hG hfits cached us c₁ K
          (fun v hv => hus v (List.mem_cons_of_mem _ hv)) hcached₁
        cases out with
        | error c₂ =>
          exact ⟨.error c₂, fun fuel hfuel => by simp only [labelChildren, hrun₁ fuel hfuel, hrun₂ fuel hfuel],
            hadv₁.fails hrest⟩
        | ok out =>
          obtain ⟨ss, whole, c₂⟩ := out
          obtain ⟨⟨hadv₂, hcached₂, hframe₂⟩, hgrown₂, hfull, hnull, hlabelled⟩ := hrest
          refine ⟨.ok (s :: ss, whole, c₂), fun fuel hfuel => by
            simp only [labelChildren, hrun₁ fuel hfuel, hrun₂ fuel hfuel],
            ⟨hadv₁.trans hadv₂, hcached₂, (hframe₁.mono hK).trans hframe₂⟩, .cons (hgrown₁ s rfl) hgrown₂,
            fun h => by rw [List.length_cons, List.length_cons, hfull h], hnull, fun hnone => ?_⟩
          obtain ⟨s', hs, hdone, -⟩ := hdone₁ (hadv₂.unset hnone)
          obtain rfl := Option.some.inj hs
          exact .cons hdone.1 (hlabelled hnone)

end

end Labels

end Bbq.Burg
