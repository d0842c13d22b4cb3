import Mathlib.Data.Fintype.Lattice
import Bbq.Burg.Refusals

/-!
# What a rewrite without an error has covered

* `CoveredBy` is a rewrite that has done it all: the nodes reachable from the root are labelled once each and
  handed to the reducer once each, in reverse postorder, and the actions are those of one derivation for each.
  `Accounts` adds what holds where there was an error.
* `coverAll_spec`, `coverAll_latched`: the loop that covers, without an error and with one.
* **`burgRewrite_ends`**: every rewrite ends. It accounts for its errors, or a guard read a child that is not
  there.
-/

namespace Bbq.Burg

open Bbq.Lib Bbq.Lib.Relax

variable {ν : Type}

section Definitions

variable [DecidableEq ν] (G : Spec) (eval : String → Node ν → Bool) (refuses : Nat → Bool) (Γ : Graph ν)

/-- What `log` has of a cover of the nodes `post`, which are those reachable from the root, in postorder. -/
structure CoveredBy (root : ν) (log : List (Event ν)) (post : List ν) (es : List (Cover ν)) : Prop where
  order : ∃ seen, Explores Γ.succs [] root seen post
  nodup : post.Nodup
  reached : ∀ n, n ∈ post ↔ Relation.ReflTransGen (Edge Γ.succs) root n
  /-- Every node is labelled once. -/
  labelled : ∀ n ∈ post, times n log = 1
  /-- In reverse postorder, every node is handed to the reducer once. -/
  handed : (handings log).map Prod.fst = post.reverse
  /-- Its state is a label with a rule for the start nonterminal. -/
  states : ∀ h ∈ handings log, Labelled (Programmed G fun r u => r.holds eval u) (Γ.node h.1) h.2 ∧
    h.2.table.rule G.startNonterm ≠ 0
  /-- The reducer performs a derivation from each: all that its rules walk has been derived. -/
  derived : List.Forall₂ (fun n e => e.goal = (Γ.node n, G.startNonterm) ∧
    e.Along G (fun r u => r.holds eval u) (walked G Node.children)) post.reverse es
  ran : actionsOf log = Cover.actionsAll es

/-- What a rewrite from `c` that comes to `c'` has done about errors. -/
structure Accounts (root : ν) (c c' : Context ν) : Prop where
  covers : c.error = none → c'.error = none → ∃ post es, CoveredBy G eval Γ root c'.log post es
  refused : ∀ k, c.asked ≤ k → k < c'.asked → refuses k = true → c'.error ≠ none
  first : c'.error = c.error.or (firstRaised c'.log)
  quiet : Quiet c'.log
  late : c.error ≠ none → actionsOf c'.log = []
  /-- Later rewrites, of whatever graph, do nothing. -/
  later : c'.error ≠ none → ∀ (eval' : String → Node ν → Bool) (refuses' : Nat → Bool) (Γ' : Graph ν) (fuel : Nat)
    (root' : ν), burgRewrite G eval' refuses' Γ' fuel root' c' = some (.ok { c' with log := [] })

end Definitions

/-! ## Reducing with the log -/

section Reduce

variable {G : Spec} {fuel : Nat}

/-- The actions of `as` have been run. -/
def Context.afterActions (c : Context ν) (as : List (Rule × Node ν)) : Context ν :=
  { c with log := c.log ++ as.map fun a => .ran a.1 a.2 }

theorem afterActions_append (c : Context ν) (as bs : List (Rule × Node ν)) :
    (c.afterActions as).afterActions bs = c.afterActions (as ++ bs) := by
  simp only [Context.afterActions, List.map_append, List.append_assoc]

theorem burgReduce_latched {t : Place ν} {nt : String} {error : String × String} {r : List (Rule × Node ν) × Ctx}
    (h : burgReduce G true fuel t nt (some error) = some r) : r.2 = some error := by
  cases fuel with
  | zero => cases h
  | succ fuel =>
    simp only [burgReduce, Option.isSome_some, and_self, if_true, Option.some.injEq] at h
    rw [← h]

theorem inTurn_latched {goals : List (Place ν × String)} {error : String × String} {r : List (Rule × Node ν) × Ctx}
    (h : inTurn (burgReduce G true fuel) goals (some error) = some r) : r.2 = some error := by
  induction goals generalizing r with
  | nil =>
    cases h
    rfl
  | cons g goals ih =>
    obtain ⟨⟨ran, ctx⟩, hfirst, h⟩ := Option.bind_eq_some_iff.mp h
    obtain ⟨⟨more, ctx'⟩, hrest, rfl⟩ := Option.map_eq_some_iff.mp h
    obtain rfl : ctx = some error := burgReduce_latched hfirst
    have hlatched : ctx' = some error := ih hrest
    exact hlatched

/-- Reductions that leave no error, with the log. -/
theorem reduceInTurn_eq
    (ih : ∀ (t : Place ν) (nt : String) (c : Context ν) (as : List (Rule × Node ν)), c.error = none →
      burgReduce G true fuel t nt none = some (as, none) → reduceOn G fuel t nt c = some (.ok (c.afterActions as)))
    (goals : List (Place ν × String)) (c : Context ν) (as : List (Rule × Node ν)) (hnone : c.error = none)
    (h : inTurn (burgReduce G true fuel) goals none = some (as, none)) :
    reduceInTurn (reduceOn G fuel) goals c = some (.ok (c.afterActions as)) := by
  induction goals generalizing c as with
  | nil =>
    cases h
    simp only [reduceInTurn, Context.afterActions, List.map_nil, List.append_nil]
  | cons g goals ihg =>
    obtain ⟨⟨ran, ctx⟩, hfirst, h⟩ := Option.bind_eq_some_iff.mp h
    obtain ⟨⟨more, ctx'⟩, hrest, heq⟩ := Option.map_eq_some_iff.mp h
    obtain ⟨rfl, rfl⟩ := Prod.mk.inj heq
    have hctx : ctx = none := by
      cases ctx with
      | none => rfl
      | some error => cases inTurn_latched hrest
    subst hctx
    rw [reduceInTurn, ih g.1 g.2 c ran hnone hfirst, Run.andThen, Option.bind_some]
    dsimp only
    rw [ihg (c.afterActions ran) more hnone hrest, afterActions_append]

/-- **A reduction that leaves no error**, with the log. -/
theorem reduceOn_eq (fuel : Nat) : ∀ (t : Place ν) (nt : String) (c : Context ν) (as : List (Rule × Node ν)), c.error = none →
    burgReduce G true fuel t nt none = some (as, none) → reduceOn G fuel t nt c = some (.ok (c.afterActions as)) := by
  induction fuel with
  | zero => intro t nt c as _ h; cases h
  | succ fuel ih =>
    intro t nt c as hnone h
    simp only [burgReduce, Option.isSome_none, Bool.false_eq_true, and_false, if_false] at h
    simp only [reduceOn, hnone, Option.isSome_none, Bool.false_eq_true, if_false]
    cases hcase : caseOf G (t.2.table.rule nt) with
    | none =>
      rw [hcase] at h
      cases h
    | some r =>
      rw [hcase] at h
      dsimp only at h ⊢
      obtain ⟨goals, hgoals, h⟩ := Option.bind_eq_some_iff.mp h
      obtain ⟨⟨ran, ctx⟩, hturn, heq⟩ := Option.map_eq_some_iff.mp h
      obtain ⟨rfl, rfl⟩ := Prod.mk.inj heq
      rw [hgoals]
      dsimp only
      rw [reduceInTurn_eq ih goals c ran hnone hturn, Run.andThen, Option.bind_some]
      simp only [Context.afterActions, Context.note, List.map_append, List.map_singleton, List.append_assoc]

end Reduce

/-! ## The loop that covers -/

section Cover

variable {G : Spec} {eval : String → Node ν → Bool} {refuses : Nat → Bool} {Γ : Graph ν} {c c₁ c₂ : Context ν}
  {new new₁ new₂ : List (Event ν)}

theorem Run.settles_andThen {r : Nat → Run ν} {next : Nat → Context ν → Run ν} {out : Except (Context ν) (Context ν)}
    (h : Settles r (.ok c)) (h' : Settles (fun fuel => next fuel c) out) :
    Settles (fun fuel => (r fuel).andThen (next fuel)) out := by
  obtain ⟨N, hN⟩ := h
  obtain ⟨M, hM⟩ := h'
  refine ⟨max N M, fun n hn => ?_⟩
  dsimp only
  rw [hN n (le_trans (le_max_left N M) hn), Run.andThen, Option.bind_some]
  exact hM n (le_trans (le_max_right N M) hn)

theorem quiet_of_unraised {log : List (Event ν)} (h : firstRaised log = none) : Quiet log := by
  induction log with
  | nil => trivial
  | cons e log ih =>
    cases e with
    | raised error => cases h
    | programmed u ss => exact ih h
    | handed n s => exact ih h
    | ran r u => exact ih h

variable (refuses) in
/-- From `c` to `c'` nodes are handed to the reducer, or errors raised. -/
structure Covering (c c' : Context ν) (new : List (Event ν)) : Prop extends Extends refuses c c' new where
  cache : c'.cache = c.cache
  quiet : Quiet new
  unprogrammed : programmes new = []

theorem Covering.refl (c : Context ν) : Covering refuses c c [] := ⟨.refl c, rfl, trivial, rfl⟩

theorem Covering.trans (h₁ : Covering refuses c c₁ new₁) (h₂ : Covering refuses c₁ c₂ new₂)
    (hidle : c₁.error ≠ none → actionsOf new₂ = []) : Covering refuses c c₂ (new₁ ++ new₂) where
  toExtends := h₁.toExtends.trans h₂.toExtends
  cache := h₂.cache.trans h₁.cache
  quiet := h₁.quiet.append h₂.quiet fun hraised => hidle fun hnone => hraised (h₁.unset hnone).2
  unprogrammed := by rw [programmes_append, h₁.unprogrammed, h₂.unprogrammed]; rfl

theorem covering_setError (refuses : Nat → Bool) (c : Context ν) (msg arg : String) :
    Covering refuses c (c.setError msg arg) [.raised (msg, arg)] :=
  ⟨extends_setError c msg arg, rfl, rfl, rfl⟩

@[simp] theorem actionsOf_ran (as : List (Rule × Node ν)) :
    actionsOf (as.map fun a => (.ran a.1 a.2 : Event ν)) = as := by
  induction as with
  | nil => rfl
  | cons a as ih => exact congrArg (a :: ·) ih

theorem unraised_ran (as : List (Rule × Node ν)) : firstRaised (as.map fun a => (.ran a.1 a.2 : Event ν)) = none := by
  induction as with
  | nil => rfl
  | cons a as ih => exact ih

theorem unprogrammed_ran (as : List (Rule × Node ν)) : programmes (as.map fun a => (.ran a.1 a.2 : Event ν)) = [] := by
  induction as with
  | nil => rfl
  | cons a as ih => exact ih

theorem unhanded_ran (as : List (Rule × Node ν)) : handings (as.map fun a => (.ran a.1 a.2 : Event ν)) = [] := by
  induction as with
  | nil => rfl
  | cons a as ih => exact ih

theorem covering_hand (refuses : Nat → Bool) (c : Context ν) (n : ν) (s : State) (as : List (Rule × Node ν)) :
    Covering refuses c ((c.note (.handed n s)).afterActions as) (.handed n s :: as.map fun a => .ran a.1 a.2) where
  log := List.append_assoc _ _ _
  error := by
    have hfirst : firstRaised (.handed n s :: as.map fun a => (.ran a.1 a.2 : Event ν)) = none := unraised_ran as
    rw [hfirst, Option.or_none]
    rfl
  asked := le_refl _
  refused := fun k h h' => absurd (lt_of_le_of_lt h h') (lt_irrefl _)
  cache := rfl
  quiet := quiet_of_unraised (unraised_ran as)
  unprogrammed := unprogrammed_ran as

variable (hactions : G.hasActions = true)

include hactions

/-- A node that is handed over once there is an error is left alone. -/
theorem hand_latched (n : ν) (s : State) (hlatched : c.error ≠ none) :
    Settles (fun fuel => hand G Γ fuel n s c) (.ok (c.note (.handed n s))) := by
  refine .of_succ (.of_forall fun fuel => ?_)
  have hsome : (c.note (.handed n s)).error.isSome = true := Option.isSome_iff_ne_none.mpr hlatched
  simp only [hand, hactions, if_true, reduceOn, hsome]

/-- **A node that is covered**: the reducer performs a derivation. -/
theorem hand_labelled {n : ν} {s : State} (hnone : c.error = none)
    (hs : Labelled (Programmed G fun r u => r.holds eval u) (Γ.node n) s) (hrule : s.table.rule G.startNonterm ≠ 0) :
    ∃ e : Cover ν, e.goal = (Γ.node n, G.startNonterm) ∧ e.Along G (fun r u => r.holds eval u) (walked G Node.children) ∧
      Settles (fun fuel => hand G Γ fuel n s c) (.ok ((c.note (.handed n s)).afterActions e.actions)) := by
  obtain ⟨e, he⟩ := performs_of_programmed true _ (Γ.node n) s (Nat.lt_succ_self _) hs G.startNonterm hrule
  obtain ⟨N, hN⟩ := he.runs
  refine ⟨e, he.goal, he.along, N, fun fuel hfuel => ?_⟩
  simp only [hand, hactions, if_true]
  exact reduceOn_eq fuel _ _ _ _ hnone (hN fuel hfuel)

theorem cover_latched (refuses : Nat → Bool) (n : ν) (c : Context ν) (hlatched : c.error ≠ none) :
    ∃ c' new, Settles (fun fuel => match (c.cache n).filter fun s => s.table.rule G.startNonterm ≠ 0 with
        | none => some (.ok (c.setError "burg: start nonterminal does not cover graph node" (Γ.node n).op))
        | some s => hand G Γ fuel n s c) (.ok c') ∧
      Covering refuses c c' new ∧ actionsOf new = [] ∧ c'.error ≠ none := by
  cases (c.cache n).filter fun s => s.table.rule G.startNonterm ≠ 0 with
  | none =>
    exact ⟨_, [.raised ("burg: start nonterminal does not cover graph node", (Γ.node n).op)], .const _,
      covering_setError refuses c _ _, rfl, error_setError _ _ _⟩
  | some s =>
    refine ⟨_, [.handed n s], hand_latched hactions n s hlatched, ?_, rfl, hlatched⟩
    have hcovering := covering_hand refuses c n s []
    simpa only [Context.afterActions, List.map_nil, List.append_nil] using hcovering

/-- Once there is an error, no action starts. -/
theorem coverAll_latched (refuses : Nat → Bool) (ns : List ν) (c : Context ν) (hlatched : c.error ≠ none) :
    ∃ c' new, Settles (fun fuel => coverAll G Γ fuel ns c) (.ok c') ∧ Covering refuses c c' new ∧ actionsOf new = [] := by
  induction ns generalizing c with
  | nil => exact ⟨c, [], .const _, .refl c, rfl⟩
  | cons n ns ih =>
    obtain ⟨c₁, new₁, hone, hcovering₁, hidle₁, hlatched₁⟩ := cover_latched hactions refuses n c hlatched
    obtain ⟨c₂, new₂, hrest, hcovering₂, hidle₂⟩ := ih c₁ hlatched₁
    refine ⟨c₂, new₁ ++ new₂, Run.settles_andThen hone hrest, hcovering₁.trans hcovering₂ fun _ => hidle₂, ?_⟩
    rw [actionsOf_append, hidle₁, hidle₂]
    rfl

variable (G eval Γ) in
/-- What a walk over `ns` that leaves no error has handed over and derived. -/
structure Walked (cache : ν → Option State) (ns : List ν) (log : List (Event ν)) (es : List (Cover ν)) : Prop where
  handed : (handings log).map Prod.fst = ns
  states : ∀ h ∈ handings log, cache h.1 = some h.2 ∧ h.2.table.rule G.startNonterm ≠ 0
  derived : List.Forall₂ (fun n e => e.goal = (Γ.node n, G.startNonterm) ∧
    e.Along G (fun r u => r.holds eval u) (walked G Node.children)) ns es
  ran : actionsOf log = Cover.actionsAll es

/-- **The loop that covers**: without an error, it hands over every node. -/
theorem coverAll_spec (refuses : Nat → Bool) (ns : List ν) (c : Context ν) (hnone : c.error = none)
    (hs : ∀ n ∈ ns, ∀ s, c.cache n = some s → Labelled (Programmed G fun r u => r.holds eval u) (Γ.node n) s) :
    ∃ c' new, Settles (fun fuel => coverAll G Γ fuel ns c) (.ok c') ∧ Covering refuses c c' new ∧
      (c'.error = none → ∃ es, Walked G eval Γ c.cache ns new es) := by
  induction ns generalizing c with
  | nil => exact ⟨c, [], .const _, .refl c, fun _ => ⟨[], rfl, nofun, .nil, rfl⟩⟩
  | cons n ns ih =>
    cases hcovered : (c.cache n).filter fun s => s.table.rule G.startNonterm ≠ 0 with
    | none =>
      -- not covered: the rest is gone through with the error set
      obtain ⟨c', new, hrest, hcovering, hidle⟩ := coverAll_latched hactions refuses ns _
        (error_setError c "burg: start nonterminal does not cover graph node" (Γ.node n).op)
      refine ⟨c', _, ?_, (covering_setError refuses c _ _).trans hcovering fun _ => hidle, fun hnone' => ?_⟩
      · exact Run.settles_andThen (by rw [hcovered]; exact .const _) hrest
      · exact absurd (hcovering.unset hnone').1 (error_setError _ _ _)
    | some s =>
      obtain ⟨hcache, hrule⟩ := Option.filter_eq_some_iff.mp hcovered
      obtain ⟨e, hgoal, halong, hhand⟩ := hand_labelled hactions hnone (hs n List.mem_cons_self s hcache)
        (of_decide_eq_true hrule)
      have hcovering₁ := covering_hand refuses c n s e.actions
      obtain ⟨c', new, hrest, hcovering, hwalked⟩ := ih ((c.note (.handed n s)).afterActions e.actions) hnone
        fun n hn => hs n (List.mem_cons_of_mem _ hn)
      refine ⟨c', _, ?_, hcovering₁.trans hcovering fun hlatched => absurd hnone hlatched, fun hnone' => ?_⟩
      · exact Run.settles_andThen (by rw [hcovered]; exact hhand) hrest
      · obtain ⟨es, hhanded, hstates, hderived, hran⟩ := hwalked hnone'
        have hhandings : handings ((.handed n s : Event ν) :: e.actions.map fun a => .ran a.1 a.2) = [(n, s)] :=
          congrArg ((n, s) :: ·) (unhanded_ran e.actions)
        have hactionsOf : actionsOf ((.handed n s : Event ν) :: e.actions.map fun a => .ran a.1 a.2) = e.actions :=
          actionsOf_ran e.actions
        refine ⟨e :: es, ?_, fun h hh => ?_, .cons ⟨hgoal, halong⟩ hderived, ?_⟩
        · rw [handings_append, hhandings, List.map_append, hhanded]
          rfl
        · rw [handings_append, hhandings, List.mem_append, List.mem_singleton] at hh
          rcases hh with rfl | hh
          · exact ⟨hcache, of_decide_eq_true hrule⟩
          · exact hstates h hh
        · rw [actionsOf_append, hactionsOf, hran, Cover.actionsAll]

end Cover

/-! ## The loop that labels, and the order -/

section Parts

variable [DecidableEq ν] {G : Spec} {eval : String → Node ν → Bool} {refuses : Nat → Bool} {Γ : Graph ν}

omit [DecidableEq ν] in
/-- What is larger than all nodes of a finite graph. -/
theorem exists_larger [Finite ν] (Γ : Graph ν) (root : ν) : ∃ K, ∀ n, sizeOf (Γ.node n) < K := by
  have : Nonempty ν := ⟨root⟩
  obtain ⟨m, hm⟩ := Finite.exists_max fun n => sizeOf (Γ.node n)
  exact ⟨sizeOf (Γ.node m) + 1, fun n => Nat.lt_succ_of_le (hm n)⟩

/-- **The loop that labels.** -/
theorem labelAll_ends (eval : String → Node ν → Bool) (refuses : Nat → Bool) (hG : Small G) (hfits : ∀ n, Fits G (Γ.node n)) {K : Nat} (hK : ∀ n, sizeOf (Γ.node n) < K)
    (ns : List ν) (c : Context ν) (hc : Cached G eval Γ K c) :
    ∃ out, (∀ fuel, G.rules.length < fuel → labelAll G eval refuses Γ fuel ns c = out) ∧
      match out with
      | .error c' => Fails G refuses c c'
      | .ok c' => Comes G eval refuses Γ true K K c c' ∧ (c'.error = none → ∀ n ∈ ns, c'.cache n ≠ none) := by
  induction ns generalizing c with
  | nil => exact ⟨.ok c, fun _ _ => rfl, ⟨.refl c, fun _ => hc, (still_refl refuses c).frame rfl⟩, nofun⟩
  | cons n ns ih =>
    have hnode : Γ.node n = Γ.node (Γ.node n).data := by rw [Γ.id_node]
    obtain ⟨out, hrun, hends⟩ := labelWith_ends eval refuses hG hfits true (Γ.node n) c K hnode (hK n) fun _ => hc
    cases out with
    | error c₁ => exact ⟨.error c₁, fun fuel hfuel => by simp only [labelAll, burgLabel, hrun fuel hfuel], hends⟩
    | ok out =>
      obtain ⟨o, c₁⟩ := out
      obtain ⟨⟨hadv₁, hcached₁, hframe₁⟩, -, hdone⟩ := hends
      obtain ⟨out, hrun₂, hrest⟩ := ih c₁ (hcached₁ rfl)
      refine ⟨out, fun fuel hfuel => by simp only [labelAll, burgLabel, hrun fuel hfuel, hrun₂ fuel hfuel], ?_⟩
      cases out with
      | error c₂ => exact hadv₁.fails hrest
      | ok c₂ =>
        obtain ⟨⟨hadv₂, hcached₂, hframe₂⟩, hpresent⟩ := hrest
        refine ⟨⟨hadv₁.trans hadv₂, hcached₂, (hframe₁.mono (hK n)).trans hframe₂⟩, fun hnone m hm => ?_⟩
        rcases List.mem_cons.mp hm with rfl | hm
        · obtain ⟨s, -, -, hcache, -⟩ := hdone (hadv₂.unset hnone)
          rw [Γ.id_node] at hcache
          exact hframe₂.stays m (hcache rfl)
        · exact hpresent hnone m hm

omit [DecidableEq ν] in
theorem granted_asks {c c' : Context ν} (h : Granted (Context.ask refuses) c c') :
    c' = { c with asked := c'.asked } ∧ c.asked ≤ c'.asked ∧ ∀ k, c.asked ≤ k → k < c'.asked → refuses k = false := by
  induction h with
  | refl => exact ⟨rfl, le_refl _, fun k h h' => absurd (lt_of_le_of_lt h h') (lt_irrefl _)⟩
  | tail _ hask ih =>
    obtain ⟨hsame, hle, hgranted⟩ := ih
    obtain ⟨hrefused, rfl⟩ := Prod.mk.inj hask
    refine ⟨by rw [hsame], Nat.le_succ_of_le hle, fun k hk hk' => ?_⟩
    rcases Nat.lt_succ_iff_lt_or_eq.mp hk' with hlt | rfl
    · exact hgranted k hk hlt
    · exact hrefused

/-- **The reverse postorder** is found, or something is refused. -/
theorem rpoDfs_settles [Finite ν] (refuses : Nat → Bool) (Γ : Graph ν) (root : ν) (c : Context ν) :
    ∃ r n, Settles (fun fuel => rpoDfs refuses Γ fuel root c) (r, { c with asked := n }) ∧ c.asked ≤ n ∧
      (r = none ∨ ∃ seen post, Explores Γ.succs [] root seen post ∧ r = some post.reverse ∧
        ∀ k, c.asked ≤ k → k < n → refuses k = false) := by
  cases hfirst : refuses c.asked with
  | true =>
    exact ⟨none, c.asked + 1, .of_forall fun fuel => by simp only [rpoDfs, Context.ask, hfirst], Nat.le_succ _, .inl rfl⟩
  | false =>
    cases hsecond : refuses (c.asked + 1) with
    | true =>
      exact ⟨none, c.asked + 2, .of_forall fun fuel => by simp only [rpoDfs, Context.ask, hfirst, hsecond],
        Nat.le_add_right _ 2, .inl rfl⟩
    | false =>
      obtain ⟨⟨r, c'⟩, hrun, hends⟩ :=
        search_settles Γ.succs (Context.ask refuses) root { c with asked := c.asked + 2 }
      have hsettles : Settles (fun fuel => rpoDfs refuses Γ fuel root c) (r.map List.reverse, c') := by
        have hmap := hrun.map fun p => (p.1.map List.reverse, p.2)
        simpa only [rpoDfs, Context.ask, hfirst, hsecond] using hmap
      rcases hends with ⟨seen, post, hexplores, hr, hgranted⟩ | ⟨hr, g, hgranted, hask⟩
      · obtain ⟨hsame, hle, hall⟩ := granted_asks hgranted
        dsimp only at hr hsame hle hall
        refine ⟨_, c'.asked, by rw [hsame] at hsettles; exact hsettles, by omega, .inr ⟨seen, post, hexplores, by rw [hr]; rfl,
          fun k hk hk' => ?_⟩⟩
        by_cases hlt : k < c.asked + 2
        · obtain rfl | rfl : k = c.asked ∨ k = c.asked + 1 := by omega
          · exact hfirst
          · exact hsecond
        · exact hall k (by omega) hk'
      · obtain ⟨hsame, hle, -⟩ := granted_asks hgranted
        obtain ⟨-, rfl⟩ := Prod.mk.inj hask
        dsimp only at hr hle
        refine ⟨_, g.asked + 1, by rw [hsame] at hsettles; exact hsettles, by omega, .inl (by rw [hr]; rfl)⟩

end Parts

/-! ## Whole rewrites -/

section Rewrite

variable [DecidableEq ν] (G : Spec) (eval : String → Node ν → Bool) (refuses : Nat → Bool) (Γ : Graph ν)

/-- The context a run ends in. -/
def endOf : Except (Context ν) (Context ν) → Context ν
  | .error c => c
  | .ok c => c

/-- What a rewrite comes to. -/
def RewriteEnds (root : ν) (c : Context ν) (out : Except (Context ν) (Context ν)) : Prop :=
  (∀ p ∈ programmes (endOf out).log, GrownAll p.1.children p.2 ∧ p.2.length = p.1.children.length) ∧
    match out with
    | .error c' => ∃ p ∈ programmes c'.log, ¬ Reads G p.1 p.2
    | .ok c' => (∀ p ∈ programmes c'.log, Reads G p.1 p.2) ∧ Accounts G eval refuses Γ root c c'

variable {G eval refuses Γ} {root : ν} {c c₀ c₁ c₂ : Context ν} {new : List (Event ν)}

/-- The rewrite starts from `c₀`, with an empty log and no error. -/
structure Starts (c c₀ : Context ν) : Prop where
  log : c₀.log = []
  error : c₀.error = none
  entry : c.error = none
  asked : c₀.asked = c.asked

theorem Starts.fails (h : Starts c c₀) (hfails : Fails G refuses c₀ c₁) :
    RewriteEnds G eval refuses Γ root c (.error c₁) := by
  obtain ⟨new, hlabels, hread⟩ := hfails
  have hlog : c₁.log = new := by rw [hlabels.log, h.log, List.nil_append]
  refine ⟨?_, ?_⟩
  · change ∀ p ∈ programmes c₁.log, _
    rw [hlog]
    exact hlabels.full
  · change ∃ p ∈ programmes c₁.log, _
    rwa [hlog]

/-- Nodes are labelled, and then they are covered. -/
theorem Starts.finishes (h : Starts c c₀) (hadv : Advances G refuses c₀ c₁) (hcovering : Covering refuses c₁ c₂ new)
    (hidle : c₁.error ≠ none → actionsOf new = [])
    (hcovers : c₂.error = none → programmes c₂.log = programmes c₁.log → handings c₂.log = handings new →
      actionsOf c₂.log = actionsOf new → ∃ post es, CoveredBy G eval Γ root c₂.log post es) :
    RewriteEnds G eval refuses Γ root c (.ok c₂) := by
  obtain ⟨new₁, hlabels, hreads⟩ := hadv
  have hextends := hlabels.toExtends.trans hcovering.toExtends
  have hlog : c₂.log = new₁ ++ new := by rw [hextends.log, h.log, List.nil_append]
  have hlog₁ : c₁.log = new₁ := by rw [hlabels.log, h.log, List.nil_append]
  have hprogrammes : programmes c₂.log = programmes new₁ := by
    rw [hlog, programmes_append, hcovering.unprogrammed, List.append_nil]
  have herror : c₂.error = firstRaised c₂.log := by rw [hextends.error, h.error, Option.none_or, hlog]
  refine ⟨?_, ?_, fun _ hnone => ?_, fun k hk hk' hrefused => ?_, ?_, ?_, fun hlatched => absurd h.entry hlatched,
    fun hlatched eval' refuses' Γ' fuel root' => ?_⟩
  · change ∀ p ∈ programmes c₂.log, _
    rw [hprogrammes]
    exact hlabels.full
  · rw [hprogrammes]
    exact hreads
  · refine hcovers hnone (by rw [hprogrammes, hlog₁]) ?_ ?_
    · rw [hlog, handings_append, hlabels.unhanded, List.nil_append]
    · rw [hlog, actionsOf_append, hlabels.idle, List.nil_append]
  · rw [herror, hlog]
    exact hextends.refused k (h.asked ▸ hk) hk' hrefused
  · rw [herror, h.entry, Option.none_or]
  · rw [hlog]
    refine (quiet_of_idle hlabels.idle).append hcovering.quiet fun hraised => hidle fun hnone => ?_
    exact hraised (hlabels.unset hnone).2
  · have hsome : c₂.error.isSome = true := Option.isSome_iff_ne_none.mpr hlatched
    simp only [burgRewrite, hsome, if_true]

/-- The rewrite stops with an error. -/
theorem Starts.stops (h : Starts c c₀) (hadv : Advances G refuses c₀ c₁) (hlatched : c₁.error ≠ none) :
    RewriteEnds G eval refuses Γ root c (.ok c₁) :=
  h.finishes hadv (.refl c₁) (fun _ => rfl) fun hnone => absurd hnone hlatched

/-- Without an error on entry. -/
theorem burgRewrite_unset {fuel : Nat} (hnone : c.error = none) : burgRewrite G eval refuses Γ fuel root c =
    if (Γ.succs root).isEmpty then rewriteTree G eval refuses Γ fuel root { c with log := [] }
    else rewriteGraph G eval refuses Γ fuel root { c with log := [] } :=
  if_neg (by simp [hnone])

variable (eval) in
/-- Once the order is found. -/
theorem rewriteGraph_ordered {fuel : Nat} {rpo : List ν}
    (h : rpoDfs refuses Γ fuel root { c with cache := fun _ => none } = some (some rpo, c₁)) :
    rewriteGraph G eval refuses Γ fuel root c =
      match labelAll G eval refuses Γ fuel rpo c₁ with
      | .error c => some (.error c)
      | .ok c => coverAll G Γ fuel rpo c := by
  rw [rewriteGraph, h]
  rfl

variable (hG : Small G) (hactions : G.hasActions = true) (hfits : ∀ n, Fits G (Γ.node n))

include hG hactions hfits

/-- **A root without successors.** -/
theorem rewriteTree_ends (hstarts : Starts c c₀) (hsuccs : Γ.succs root = []) :
    ∃ out, Settles (fun fuel => rewriteTree G eval refuses Γ fuel root c₀) out ∧
      RewriteEnds G eval refuses Γ root c out := by
  obtain ⟨out, hrun, hends⟩ := labelWith_ends eval refuses hG hfits false (Γ.node root) c₀ _ (by rw [Γ.id_node])
    (Nat.lt_succ_self _) fun h => by cases h
  cases out with
  | error c₁ =>
    refine ⟨.error c₁, Settles.of_enough G.rules.length (.const _) fun fuel hfuel => ?_, hstarts.fails hends⟩
    simp only [rewriteTree, burgLabelTree, hrun fuel hfuel]
  | ok out =>
    obtain ⟨o, c₁⟩ := out
    obtain ⟨⟨hadv, -, -⟩, -, hdone⟩ := hends
    cases o with
    | none =>
      refine ⟨.ok c₁, Settles.of_enough G.rules.length (.const _) fun fuel hfuel => ?_, hstarts.stops hadv fun hnone => ?_⟩
      · simp only [rewriteTree, burgLabelTree, hrun fuel hfuel]
      · obtain ⟨s, hs, -⟩ := hdone hnone
        cases hs
    | some s =>
      by_cases hrule : s.table.rule G.startNonterm = 0
      · have hset : Covering refuses c₁ _ _ :=
          covering_setError refuses c₁ "burg: start nonterminal has no rule at root" (Γ.node root).op
        refine ⟨.ok _, Settles.of_enough G.rules.length (.const _) fun fuel hfuel => ?_,
          hstarts.finishes hadv hset (fun _ => rfl) fun hnone => absurd hnone (error_setError _ _ _)⟩
        simp only [rewriteTree, burgLabelTree, hrun fuel hfuel, hrule, if_true]
      · have hhand : ∀ fuel, G.rules.length < fuel →
            rewriteTree G eval refuses Γ fuel root c₀ = hand G Γ fuel root s c₁ := fun fuel hfuel => by
          simp only [rewriteTree, burgLabelTree, hrun fuel hfuel, hrule, if_false]
        by_cases hnone : c₁.error = none
        · obtain ⟨s', hs, hdone, -, htimes⟩ := hdone hnone
          obtain rfl := Option.some.inj hs
          obtain ⟨e, hgoal, halong, hsettled⟩ := hand_labelled (Γ := Γ) hactions hnone hdone.1 hrule
          refine ⟨_, Settles.of_enough G.rules.length hsettled hhand, hstarts.finishes hadv (covering_hand refuses c₁ root s e.actions)
            (fun hlatched => absurd hnone hlatched) fun _ hprogrammes hhandings hran => ⟨[root], [e], ?_⟩⟩
          have hnil : ExploresAll Γ.succs [root] (Γ.succs root) [root] [] := by
            rw [hsuccs]
            exact .nil
          have hexplores : Explores Γ.succs [] root [root] [root] := .mk hnil
          have hhanded : handings ((c₁.note (.handed root s)).afterActions e.actions).log = [(root, s)] :=
            hhandings.trans (congrArg ((root, s) :: ·) (unhanded_ran e.actions))
          refine ⟨⟨_, hexplores⟩, hexplores.nodup, hexplores.mem_iff, fun n hn => ?_, by rw [hhanded]; rfl, fun h hh => ?_,
            .cons ⟨hgoal, halong⟩ .nil, ?_⟩
          · obtain rfl := List.mem_singleton.mp hn
            have hone := htimes rfl
            rw [Γ.id_node, hstarts.log] at hone
            rw [times_congr hprogrammes]
            exact hone
          · rw [hhanded, List.mem_singleton] at hh
            subst hh
            exact ⟨hdone.1, hrule⟩
          · rw [hran]
            change actionsOf (e.actions.map fun a => (.ran a.1 a.2 : Event ν)) = e.actions ++ []
            rw [actionsOf_ran, List.append_nil]
        · refine ⟨_, Settles.of_enough G.rules.length (hand_latched hactions root s hnone) hhand, ?_⟩
          have hcovering := covering_hand refuses c₁ root s []
          simp only [Context.afterActions, List.map_nil, List.append_nil] at hcovering
          exact hstarts.finishes hadv hcovering (fun _ => rfl) fun h => absurd h hnone

omit hG hactions hfits in
/-- An empty cache. -/
theorem cached_empty (hlog : c.log = []) (K n : Nat) :
    Cached G eval Γ K { c with cache := fun _ => none, asked := n } where
  grown := nofun
  done := nofun
  once := fun _ m => by
    change times m c.log ≤ 1
    rw [hlog]
    exact Nat.zero_le 1
  never := fun _ m _ => by
    change times m c.log = 0
    rw [hlog]
    rfl

/-- **A root with successors.** -/
theorem rewriteGraph_ends [Finite ν] (hstarts : Starts c c₀) :
    ∃ out, Settles (fun fuel => rewriteGraph G eval refuses Γ fuel root c₀) out ∧
      RewriteEnds G eval refuses Γ root c out := by
  obtain ⟨r, n, hrpo, hasked, hr⟩ := rpoDfs_settles refuses Γ root { c₀ with cache := fun _ => none }
  have hstarts' : Starts c { c₀ with cache := fun _ => none } := ⟨hstarts.log, hstarts.error, hstarts.entry, hstarts.asked⟩
  rcases hr with rfl | ⟨seen, post, hexplores, rfl, hgranted⟩
  · -- the order was refused
    refine ⟨_, hrpo.bind (.const _), hstarts'.stops (still_refused hasked "out of memory" "0").advances ?_⟩
    exact error_setError _ _ _
  · have hadv₁ : Advances G refuses { c₀ with cache := fun _ => none } { c₀ with cache := fun _ => none, asked := n } :=
      (still_granted hgranted hasked).advances
    obtain ⟨K, hK⟩ := exists_larger Γ root
    obtain ⟨out, hrun, hends⟩ := labelAll_ends eval refuses hG hfits hK post.reverse _ (cached_empty hstarts.log K n)
    cases out with
    | error c₁ =>
      exact ⟨.error c₁, hrpo.bind (Settles.of_enough G.rules.length (.const _) fun fuel hfuel => by simp only [hrun fuel hfuel]),
        hstarts'.fails (hadv₁.fails hends)⟩
    | ok c₁ =>
      obtain ⟨⟨hadv₂, hcached, -⟩, hpresent⟩ := hends
      have hadv := hadv₁.trans hadv₂
      have hcached := hcached rfl
      have hbind : ∀ {out}, Settles (fun fuel => coverAll G Γ fuel post.reverse c₁) out →
          Settles (fun fuel => rewriteGraph G eval refuses Γ fuel root c₀) out := fun hcover =>
        hrpo.bind (Settles.of_enough G.rules.length hcover fun fuel hfuel => by simp only [hrun fuel hfuel])
      by_cases hnone : c₁.error = none
      · obtain ⟨c₂, new, hcover, hcovering, hwalked⟩ := coverAll_spec hactions refuses post.reverse c₁ hnone
          fun n _ s hs => (hcached.done hnone n s (hK n) hs).1
        refine ⟨.ok c₂, hbind hcover, hstarts'.finishes hadv hcovering (fun hlatched => absurd hnone hlatched)
          fun hnone' hprogrammes hhandings hran => ?_⟩
        obtain ⟨es, hhanded, hstates, hderived, hactionsOf⟩ := hwalked hnone'
        refine ⟨post, es, ⟨seen, hexplores⟩, hexplores.nodup, hexplores.mem_iff, fun m hm => ?_, by rw [hhandings, hhanded],
          fun h hh => ?_, hderived, by rw [hran, hactionsOf]⟩
        · rw [times_congr hprogrammes]
          obtain ⟨s, hs⟩ := Option.ne_none_iff_exists'.mp (hpresent hnone m (List.mem_reverse.mpr hm))
          refine le_antisymm (hcached.once hnone m) (List.count_pos_iff.mpr ?_)
          exact List.mem_map.mpr ⟨_, (hcached.done hnone m s (hK m) hs).2, Γ.id_node m⟩
        · rw [hhandings] at hh
          obtain ⟨hs, hrule⟩ := hstates h hh
          exact ⟨(hcached.done hnone h.1 h.2 (hK h.1) hs).1, hrule⟩
      · obtain ⟨c₂, new, hcover, hcovering, hidle⟩ := coverAll_latched hactions refuses post.reverse c₁ hnone
        exact ⟨.ok c₂, hbind hcover, hstarts'.finishes hadv hcovering (fun _ => hidle)
          fun hnone' => absurd (hcovering.unset hnone').1 hnone⟩

variable (eval refuses) in
/-- **Every rewrite ends**, and accounts for its errors unless a guard read a child that is not there. -/
theorem burgRewrite_ends [Finite ν] (root : ν) (c : Context ν) :
    ∃ out, Settles (fun fuel => burgRewrite G eval refuses Γ fuel root c) out ∧
      RewriteEnds G eval refuses Γ root c out := by
  by_cases hnone : c.error = none
  · have hstarts : Starts c { c with log := [] } := ⟨rfl, hnone, hnone, rfl⟩
    simp only [burgRewrite_unset hnone]
    by_cases hsuccs : Γ.succs root = []
    · simp only [hsuccs, List.isEmpty_nil, if_true]
      exact rewriteTree_ends hG hactions hfits hstarts hsuccs
    · have hempty : (Γ.succs root).isEmpty = false := by simpa using hsuccs
      simp only [hempty, Bool.false_eq_true, if_false]
      exact rewriteGraph_ends hG hactions hfits hstarts
  · have hsome : c.error.isSome = true := Option.isSome_iff_ne_none.mpr hnone
    have hstay : ∀ (eval' : String → Node ν → Bool) (refuses' : Nat → Bool) (Γ' : Graph ν) (fuel : Nat) (root' : ν)
        (c' : Context ν), c'.error = c.error →
          burgRewrite G eval' refuses' Γ' fuel root' c' = some (.ok { c' with log := [] }) :=
      fun eval' refuses' Γ' fuel root' c' heq => if_pos (by rw [← heq] at hsome; exact hsome)
    refine ⟨.ok { c with log := [] }, .of_forall fun fuel => hstay _ _ _ _ _ c rfl, nofun, nofun,
      fun h => absurd h hnone, fun k hk hk' => absurd (lt_of_le_of_lt hk hk') (lt_irrefl _), ?_, trivial, fun _ => rfl,
      fun _ eval' refuses' Γ' fuel root' => hstay eval' refuses' Γ' fuel root' _ rfl⟩
    change c.error = c.error.or none
    rw [Option.or_none]

end Rewrite

end Bbq.Burg
