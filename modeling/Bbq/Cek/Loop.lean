import Bbq.Cek.Choice

/-!
# Arrays

The loop of an array, from one question (`moreElements`) to the next.

* `InLoop`: what the frames, windows and scopes are at each of them.
* `Ends p L m k x o`: `Sim`, from a state `x` inside the construct that `m` began.
* `entry_ends`, `question_ends`: an element, and a question, and all that follows, by induction on the fuel.
* `array_sim`: the whole array.
-/

namespace Bbq.Cek

open Zcow (Builder)

/-! ## Runs from within -/

section

variable (p : Program)

inductive Ends (L : Nat) (m : Machine) (k : Kont) (x : Machine) : Outcome St → Prop
  | ok {m'} : Within p m.frames.length x m' → m'.control = .run k → Later 0 m m' → Ends L m k x (.ok m'.state)
  | fail {w y text} : Within p m.frames.length x w → SettlesLike p (w.step p) (y.fail text) → Behind p m y →
      Ends L m k x .fail
  | timeout : Lasts p m.frames.length L x → Ends L m k x .timeout
  | missing {w} : Within p m.frames.length x w → (w.step p).control = .failed → Ends L m k x .missing

end

section

variable {p : Program} {L L' n : Nat} {m x y w s z : Machine} {k : Kont} {o : Outcome St}

theorem Ends.sim (h : Ends p L m k m o) : Sim p L 0 m k o := by
  cases h with
  | ok hw hctl hl => exact .ok hw hctl hl
  | fail hw hs hb => exact .fail hw hs hb
  | timeout h => exact .timeout h
  | missing hw hctl => exact .missing hw hctl

theorem Ends.within (hw : Within p m.frames.length x w) (h : Ends p L m k w o) : Ends p L m k x o := by
  cases h with
  | ok hw' hctl hl => exact .ok (hw.trans hw') hctl hl
  | fail hw' hs hb => exact .fail (hw.trans hw') hs hb
  | timeout h => exact .timeout (hw.lasts h)
  | missing hw' hctl => exact .missing (hw.trans hw') hctl

theorem Ends.of_le (h : Ends p L' m k x o) (hL : L ≤ L') : Ends p L m k x o := by
  cases h with
  | ok hw hctl hl => exact .ok hw hctl hl
  | fail hw hs hb => exact .fail hw hs hb
  | timeout h => exact .timeout (h.of_le hL)
  | missing hw hctl => exact .missing hw hctl

/-- A turn, and what follows. -/
theorem Ends.turn (hx : m.frames.length ≤ x.frames.length) (hw : Within p m.frames.length (x.step p) w)
    (h : Ends p L m k w o) : Ends p (L + 1) m k x o := by
  have hrun : Within p m.frames.length x w := .turn hx hw
  cases h with
  | ok hw' hctl hl => exact .ok (hrun.trans hw') hctl hl
  | fail hw' hs hb => exact .fail (hrun.trans hw') hs hb
  | timeout h => exact .timeout (hw.lasts_succ hx h)
  | missing hw' hctl => exact .missing (hrun.trans hw') hctl

/-- A turn to a state that is known. -/
theorem Ends.turn_to (hx : m.frames.length ≤ x.frames.length) (hstep : x.step p = w) (hw : m.frames.length ≤ w.frames.length)
    (h : Ends p L m k w o) : Ends p (L + 1) m k x o := by
  subst hstep
  exact .turn hx (.refl hw) h

/-- A handler about to run settles like what it does. -/
theorem Good.handler_settlesLike (h : Good p m) (hr : m.recovering = true) : SettlesLike p (m.step p) m := by
  obtain ⟨s, hs⟩ := h.sound.settles
  have hstep : Settles p (m.step p) s := by
    cases hs with
    | here hno => exact absurd hr (by simp [hno])
    | turn _ hs => exact hs
  exact ⟨s, s, hstep, hs, rfl, rfl, rfl, rfl, rfl, rfl, rfl, rfl⟩

end

/-! ## Inside a loop -/

section

variable {p : Program} {L n : Nat} {m x y w s z : Machine} {k entry : Kont} {o : Outcome St} {site : LoopSite}
  {lf : LoopFrame} {limit : Int64}

/-- The savepoint of a resyncing array, on top of its loop. -/
def resyncFrame (site : LoopSite) (y : Machine) : List Frame :=
  if site.resyncs then [.savepoint (y.savepoint (some (.resync site)))] else []

/-- The scope that `BeginArray` opens at `m`. -/
def arrayScope (site : LoopSite) (m : Machine) : OpenScope :=
  ⟨{ Leaf.carrier .array m.pos m.pos none with name := some site.arrayName }, []⟩

/-- `y` is in the loop of the array that was begun at `m`. -/
structure InLoop (p : Program) (site : LoopSite) (limit : Int64) (m y : Machine) (lf : LoopFrame) : Prop where
  held : Held False p y
  limit : lf.limit = limit
  outerEnv : lf.outerEnv = m.env
  windows : ∃ pre, y.windows = pre ++ m.windows
  scopes : Grown (arrayScope site m :: scopesOf m.builder) (scopesOf y.builder)

theorem InLoop.of_eq {y' : Machine} (h : InLoop p site limit m y lf) (hi : y'.intervals = y.intervals)
    (hd : y'.intervalDepth = y.intervalDepth) (hp : y'.pos = y.pos)
    (hs : scopesOf y'.builder = scopesOf y.builder) : InLoop p site limit m y' lf := by
  have hw : y'.windows = y.windows := by simp [Machine.windows, hi, hd]
  exact ⟨h.held.of_eq hi hd hp, h.limit, h.outerEnv, hw ▸ h.windows, hs ▸ h.scopes⟩

/-- What extends an open scope extends the scopes around it. -/
theorem Extends.outer {o : OpenScope} {S S' : List OpenScope} (h : Extends (o :: S) S') (hne : S ≠ []) : Extends S S' := by
  obtain ⟨pre, S₁, rfl, hg⟩ := h
  obtain ⟨o', rfl, -⟩ := hg.head
  obtain ⟨o₁, R, rfl⟩ := List.exists_cons_of_ne_nil hne
  exact ⟨pre ++ [o'], _, by simp, .refl o₁ R⟩

theorem extends_of_opened {o : OpenScope} {S S' : List OpenScope} (h : Grown (o :: S) S') (hne : S ≠ []) : Extends S S' :=
  Extends.outer ⟨[], _, rfl, h⟩ hne

/-- A failure in the loop leaves the array. -/
theorem InLoop.behind (h : InLoop p site limit m y lf) (hframes : unwind y.frames = unwind m.frames) : Behind p m y :=
  ⟨hframes, h.held, h.windows, extends_of_opened h.scopes (scopesOf_ne_nil _)⟩

/-- **The end of an array**, whose savepoint is on top of its loop or gone. -/
theorem close_ends (h : InLoop p site limit m x lf) (hctl : x.control = .run site.endNode)
    (hframes : x.frames = resyncFrame site x ++ .loop lf :: m.frames ∨ x.frames = .loop lf :: m.frames) :
    Ends p L m site.next x (.ok { x.state.closeScope with env := m.env, counter := loopCounter m.frames }) := by
  have hpop : (if site.resyncs then x.popSavepoint else x) = { x with frames := .loop lf :: m.frames } := by
    unfold resyncFrame at hframes
    unfold Machine.popSavepoint
    split at hframes <;> rename_i hres
    · rw [if_pos hres]
      rcases hframes with hf | hf
      · rw [hf]
        rfl
      · rw [hf]
        dsimp only
        rw [← hf]
    · rw [if_neg hres]
      rcases hframes with hf | hf
      · rw [← show x.frames = .loop lf :: m.frames from hf]
      · rw [← hf]
  have hstep : x.step p =
      { x with builder := x.builder.closeScope x.pos, frames := m.frames, env := lf.outerEnv }.go site.next := by
    simp only [Machine.step, hctl, LoopSite.endNode, Machine.exec, Machine.endArray, hpop]
  obtain ⟨o₁, R, hR⟩ := List.exists_cons_of_ne_nil (scopesOf_ne_nil m.builder)
  obtain ⟨o', ho', -⟩ := h.scopes.head
  have hopen : scopesOf x.builder = o' :: o₁ :: R := by rw [ho', hR]
  have hclose := scopesOf_closeScope x.builder hopen x.pos
  have hlen : m.frames.length ≤ x.frames.length := by
    rcases hframes with hf | hf <;> rw [hf]
    · rw [List.length_append, List.length_cons]
      omega
    · exact Nat.le_succ _
  have hwithin : Within p m.frames.length x (x.step p) := .one hlen (by rw [hstep]; exact Nat.le_refl _)
  obtain ⟨pre, hpre⟩ := h.windows
  have hlater : Later 0 m (x.step p) := by
    refine ⟨by rw [hstep]; rfl, ⟨pre, Nat.zero_le _, ?_⟩, ?_⟩
    · rw [hstep]
      exact hpre
    · rw [hstep]
      show Grown _ (scopesOf (x.builder.closeScope x.pos))
      rw [hclose, hR]
      exact .attachCapture _ (by simp)
  have hstate : (x.step p).state =
      { x.state.closeScope with env := m.env, counter := loopCounter m.frames } := by
    have hc : x.state.closeScope = { x.state with scopes := scopesOf (x.builder.closeScope x.pos) } := by
      rw [hclose]
      simp only [St.closeScope, Machine.state, hopen]
    rw [hstep, hc, ← h.outerEnv]
    rfl
  rw [← hstate]
  exact .ok hwithin (by rw [hstep]; rfl) hlater

end

/-! ## Questions -/

/-- What the answer to an array's question does at `y`; `entry` is the kont of the next element. -/
inductive Answers (site : LoopSite) (entry : Kont) (y : Machine) : Outcome Bool → Machine → Prop
  | more (r : Option Value) : Answers site entry y (.ok true) ({ y with result := r }.go entry)
  | stop (r : Option Value) : Answers site entry y (.ok false) ({ y with result := r }.go site.endNode)
  | fail (r : Option Value) (text : String) : Answers site entry y .fail ({ y with result := r }.fail text)

section

variable {p : Program} {site : LoopSite} {entry : Kont} {y : Machine} {lf : LoopFrame}

theorem Answers.of_prop (c : Prop) [Decidable c] :
    Answers site entry y (.ok (decide ¬ c)) (y.go (if c then site.endNode else entry)) := by
  by_cases hc : c
  · rw [if_pos hc, decide_eq_false (not_not_intro hc)]
    exact .stop y.result
  · rw [if_neg hc, decide_eq_true hc]
    exact .more y.result

theorem Answers.until {e : Expr} (hy : y.intervalDepth ≤ y.intervals.length) :
    Answers site entry y (do return !(← y.state.test p e)) (y.untilCheck p site e entry) := by
  unfold Machine.untilCheck Machine.consumeBool Machine.consume St.test St.value
  rw [Machine.view_state hy]
  rcases eval (y.view p) e with text | v
  · exact .fail y.result text
  · dsimp only [Outcome.ok_bind]
    rcases coerceToBool v with _ | b
    · exact .fail v _
    · rcases b with _ | _
      · exact .more v
      · exact .stop v

theorem loopCounter_resyncFrame (y' : Machine) (G : List Frame) :
    loopCounter (resyncFrame site y' ++ .loop lf :: G) = some lf.counter := by
  unfold resyncFrame
  split <;> rfl

theorem Answers.count {e : Expr} {y' : Machine} {G : List Frame} (hy : y.intervalDepth ≤ y.intervals.length)
    (hframes : y.frames = resyncFrame site y' ++ .loop lf :: G) :
    Answers site site.loopEntry y
      (do
        let count ← y.state.int p e
        if site.resyncs then .fail else return decide ¬ (y.state.counter.getD 0 ≥ count))
      (y.countCheck p site e) := by
  have hcounter : y.state.counter = some lf.counter := by
    show loopCounter y.frames = _
    rw [hframes, loopCounter_resyncFrame]
  unfold Machine.countCheck Machine.consumeInt Machine.consume St.int St.value
  rw [Machine.view_state hy, hcounter]
  rcases eval (y.view p) e with text | v
  · exact .fail y.result text
  · dsimp only [Outcome.ok_bind]
    rcases v with _ | (count | _ | _ | _ | _)
    · exact .fail _ _
    · dsimp only [Outcome.ok_bind]
      unfold resyncFrame at hframes
      split at hframes <;> rename_i hres
      · rw [if_pos hres]
        split
        · rename_i hf
          cases hf.symm.trans hframes
        · exact .fail _ _
      · rw [if_neg hres]
        split
        · rename_i hf
          cases hf.symm.trans hframes
          dsimp only [Option.getD]
          by_cases hc : lf.counter ≥ count
          · rw [if_pos hc, decide_eq_false (not_not_intro hc)]
            exact .stop _
          · rw [if_neg hc, decide_eq_true hc]
            exact .more _
        · rename_i hf
          exact absurd hframes (hf _ _)
    · exact .fail _ _
    · exact .fail _ _
    · exact .fail _ _
    · exact .fail _ _

theorem arrayMode_spec (site : LoopSite) : arrayMode site.spec = site.mode := by
  unfold LoopSite.mode arrayMode
  rfl

/-- **The question before a later element.** -/
theorem nextElement_answers {y' : Machine} {G : List Frame} (hy : y.intervalDepth ≤ y.intervals.length)
    (hframes : y.frames = resyncFrame site y' ++ .loop lf :: G) :
    Answers site site.loopEntry y (moreElements p site.mode site.resyncs lf.limit y.state)
      (y.nextElement p site lf) := by
  have hcounter : y.state.counter = some lf.counter := by
    show loopCounter y.frames = _
    rw [hframes, loopCounter_resyncFrame]
  unfold Machine.nextElement moreElements
  rcases site.mode with e | _ | e | e
  · simp only [hcounter, Option.getD_some]
    exact .of_prop _
  · rw [Machine.state_effectiveEnd hy]
    exact .of_prop (y.pos ≥ y.effectiveEnd p)
  · exact .count hy hframes
  · exact .until hy

end

/-! ## Elements -/

/-- The array closed, in the environment it was begun in. -/
def closeArray (m : Machine) (s : St) : Outcome St :=
  .ok { s.closeScope with env := m.env, counter := loopCounter m.frames }

/-- `x` is where an element of the array begins. -/
structure Looping (p : Program) (site : LoopSite) (limit : Int64) (m x : Machine) (lf : LoopFrame) : Prop where
  good : Good p x
  loop : InLoop p site limit m x lf
  frames : x.frames = resyncFrame site x ++ .loop lf :: m.frames

section

variable (p : Program) (site : LoopSite) (limit : Int64) (later : Parser) (m : Machine)

/-- The elements from here on, and the end of the array. -/
def loopFrom (n : Nat) (gate : Outcome Bool) (entry : Parser) (s : St) : Outcome St :=
  elements p site.resyncs limit (moreElements p site.mode site.resyncs limit) later n gate entry s >>= closeArray m

/-- After an element that failed in a resyncing array. -/
def retryFrom (n : Nat) (s : St) : Outcome St :=
  (if s.pos ≥ s.effectiveEnd p then if shortOf limit s then .fail else .ok s
    else elements p site.resyncs limit (moreElements p site.mode site.resyncs limit) later n (.ok true) later
      { s with pos := s.pos + 1 }) >>= closeArray m

/-- What there is to show of an element, with fuel for `n` turns after it. -/
def EntryEnds (n : Nat) : Prop :=
  ∀ {x lf entry P}, Looping p site limit m x lf → x.control = .run entry → Sim p n 0 x (.arrayNext site) (P x.state) →
    Ends p n m site.next x (loopFrom p site limit later m (n + 1) (.ok true) P x.state)

end

section

variable {p : Program} {n L : Nat} {m x y w : Machine} {site : LoopSite} {limit : Int64} {lf : LoopFrame}
  {later : Parser}

theorem Looping.length (h : Looping p site limit m x lf) : m.frames.length + 1 ≤ x.frames.length := by
  rw [h.frames, List.length_append, List.length_cons]
  omega

theorem resyncFrame_eq (hres : site.resyncs = true) (y : Machine) :
    resyncFrame site y = [.savepoint (y.savepoint (some (.resync site)))] := if_pos hres

/-- **A resyncing array whose element failed**: it goes on one byte later, or ends where the window does. -/
theorem retry_ends (hentry : site.loopEntry.recovers = false)
    (hlater : ∀ x, Good p x → x.control = .run site.loopEntry → Sim p L 0 x (.arrayNext site) (later x.state))
    (hL : n ≤ L) (ih : ∀ n', n = n' + 1 → EntryEnds p site limit later m n') (hres : site.resyncs = true)
    (hx : InLoop p site limit m x lf) (hframes : x.frames = resyncFrame site x ++ .loop lf :: m.frames)
    (hw : Good p w) (hlen : m.frames.length ≤ w.frames.length) {text : String}
    (hlike : SettlesLike p (w.step p) (y.fail text)) (hb : Behind p x y) :
    Ends p n m site.next w (retryFrom p site limit later m n x.state) := by
  have hcounter : x.state.counter = some lf.counter := by
    show loopCounter x.frames = _
    rw [hframes, loopCounter_resyncFrame]
  rw [resyncFrame_eq hres] at hframes
  obtain ⟨z, hz⟩ := hb.handled hx.held hframes rfl hlike
  obtain ⟨R, hR⟩ : ∃ R, R = z.restoreTo (x.savepoint (some (.resync site))) := ⟨_, rfl⟩
  have hexec : z.exec p (.resync site) =
      if R.pos ≥ R.effectiveEnd p then
        if shortOf limit x.state then
          { R with frames := .loop lf :: m.frames }.fail "resync: fewer elements than the declared count"
        else { R with frames := .loop lf :: m.frames }.go site.endNode
      else
        { R with
          pos := R.pos + 1
          frames := .savepoint ({ R with pos := R.pos + 1 }.savepoint (some (.resync site))) ::
            .loop lf :: m.frames }.go site.loopEntry := by
    simp only [Machine.exec, Machine.resync, hz.frames, splitSavepoint, ← hR, Machine.fewerThanDeclared, shortOf, hcounter,
      ← hx.limit]
    rfl
  have hheld : Held False p R := hR ▸ hz.held
  have hwin : R.windows = x.windows := hR ▸ hz.windows
  have hscopes : scopesOf R.builder = scopesOf x.builder := hR ▸ hz.scopes
  have hpos' : R.pos = x.state.pos := by rw [hR]; rfl
  have hend : R.effectiveEnd p = x.state.effectiveEnd p := by
    rw [Machine.effectiveEnd_eq hheld.depth, hwin]
    rfl
  have hloop : InLoop p site limit m R lf := ⟨hheld, hx.limit, hx.outerEnv, hwin ▸ hx.windows, hscopes ▸ hx.scopes⟩
  have hstate (F : List Frame) (hF : loopCounter F = some lf.counter) : Machine.state { R with frames := F } = x.state := by
    rw [hR]
    exact hz.state (hF.trans hcounter.symm)
  have hlike := hz.like
  rw [hexec] at hlike
  unfold retryFrom
  rw [← hend]
  by_cases hstop : R.pos ≥ R.effectiveEnd p
  · rw [if_pos hstop] at hlike
    rw [if_pos (show x.state.pos ≥ R.effectiveEnd p by rw [← hpos']; exact hstop)]
    by_cases hshort : shortOf limit x.state = true
    · rw [if_pos hshort] at hlike ⊢
      have hbelow : InLoop p site limit m { R with frames := .loop lf :: m.frames } lf := hloop.of_eq rfl rfl rfl rfl
      exact .fail (.refl hlen) hlike (hbelow.behind rfl)
    · rw [if_neg hshort] at hlike ⊢
      obtain ⟨s, hs, hagree⟩ := hlike.reaches rfl
      have hsframes : s.frames = .loop lf :: m.frames := hagree.frames
      have hsstate : s.state = x.state := hagree.state.trans (hstate _ rfl)
      have hslen : m.frames.length ≤ s.frames.length := by rw [hsframes]; exact Nat.le_succ _
      have hsloop : InLoop p site limit m s lf :=
        hloop.of_eq hagree.intervals hagree.intervalDepth hagree.pos (by rw [hagree.builder]; rfl)
      have hclose := close_ends (L := n) hsloop hagree.control (.inr hsframes)
      rw [hsstate] at hclose
      exact hclose.within (.turn hlen (hs.within hslen))
  · rw [if_neg hstop] at hlike
    rw [if_neg (show ¬ x.state.pos ≥ R.effectiveEnd p by rw [← hpos']; exact hstop)]
    obtain ⟨s, hs, hagree⟩ := hlike.reaches hentry
    have hsframes : s.frames = .savepoint ({ R with pos := R.pos + 1 }.savepoint (some (.resync site))) ::
        .loop lf :: m.frames := hagree.frames
    have hsp : s.savepoint (some (.resync site)) = { R with pos := R.pos + 1 }.savepoint (some (.resync site)) := by
      simp only [Machine.savepoint, hagree.env, hagree.pos, hagree.littleEndian, hagree.intervalDepth, hagree.builder]
      rfl
    have hsstate : s.state = { x.state with pos := x.state.pos + 1 } := by
      rw [hagree.state, ← hpos', ← hstate (.savepoint ({ R with pos := R.pos + 1 }.savepoint (some (.resync site))) ::
        .loop lf :: m.frames) rfl]
      rfl
    have hslen : m.frames.length ≤ s.frames.length := by
      rw [hsframes, List.length_cons, List.length_cons]
      omega
    have hgs : Good p s := hw.step.settles hs
    have hswin : s.windows = R.windows := by
      unfold Machine.windows
      rw [hagree.intervals, hagree.intervalDepth]
      rfl
    have hsloop : InLoop p site limit m s lf := by
      refine ⟨hgs.sound.held, hx.limit, hx.outerEnv, hswin ▸ hloop.windows, ?_⟩
      rw [hagree.builder]
      exact hloop.scopes
    have hwithin : Within p m.frames.length (w.step p) s := hs.within hslen
    rcases n with _ | n
    · exact .timeout ⟨hlen, Machine.running_of_step (hwithin.running hagree.control).choose_spec⟩
    · have hends := ih n rfl ⟨hgs, hsloop, by rw [resyncFrame_eq hres, hsp, hsframes]; rfl⟩ hagree.control
        ((hlater s hgs hagree.control).of_le (by omega))
      rw [hsstate] at hends
      exact hends.turn hlen hwithin

/-- The loop after an element: the counter has advanced, and a resyncing array's savepoint is taken again. -/
theorem arrayNext_step {w x : Machine} (hctl : w.control = .run (.arrayNext site))
    (hframes : w.frames = resyncFrame site x ++ .loop lf :: m.frames) :
    ∃ y, y = { w with frames := resyncFrame site w ++ Frame.loop (Machine.LoopFrame.advance lf) :: m.frames } ∧
      w.step p = y.nextElement p site (Machine.LoopFrame.advance lf) := by
  refine ⟨_, rfl, ?_⟩
  unfold resyncFrame at hframes
  unfold resyncFrame
  split at hframes <;> rename_i hres
  · simp only [Machine.step, hctl, Machine.exec, Machine.arrayNext, hres, if_true, hframes, List.singleton_append]
    rfl
  · simp only [Machine.step, hctl, Machine.exec, Machine.arrayNext, hres, hframes, List.nil_append]
    rfl

/-- **A question answered**, in the turn at `w`, and what follows. -/
theorem answered_ends (hentry : site.loopEntry.recovers = false)
    (hlater : ∀ x, Good p x → x.control = .run site.loopEntry → Sim p L 0 x (.arrayNext site) (later x.state))
    (hL : n ≤ L) (ih : ∀ n' < n, EntryEnds p site limit later m n') {entry : Kont} {P : Parser} {v : Machine}
    {gate : Outcome Bool} (hP : ∀ x, Good p x → x.control = .run entry → Sim p L 0 x (.arrayNext site) (P x.state))
    (hyloop : InLoop p site limit m y lf) (hyframes : y.frames = resyncFrame site y ++ .loop lf :: m.frames)
    (hg : Good p w) (hlen : m.frames.length ≤ w.frames.length) (hctl : ∃ k, w.control = .run k)
    (hans : Answers site entry y gate v) (hv : w.step p = v) :
    Ends p n m site.next w (loopFrom p site limit later m n gate P y.state) := by
  have hvlen : m.frames.length ≤ y.frames.length := by
    rw [hyframes, List.length_append, List.length_cons]
    omega
  unfold loopFrom
  rcases n with _ | n
  · exact .timeout ⟨hlen, hctl⟩
  cases hans with
  | more r =>
    have hv' : Good p ({ y with result := r }.go entry) := hv ▸ hg.step
    have hends := ih n (Nat.lt_succ_self n) ⟨hv', hyloop.of_eq rfl rfl rfl rfl, hyframes⟩ rfl
      ((hP _ hv' rfl).of_le (by omega))
    exact .turn_to hlen hv hvlen hends
  | stop r =>
    have hloop : InLoop p site limit m ({ y with result := r }.go site.endNode) lf :=
      hyloop.of_eq rfl rfl rfl rfl
    exact .turn_to hlen hv hvlen (close_ends hloop rfl (.inl hyframes))
  | fail r text =>
    have hheld : Held False p { y with result := r } := hyloop.held.of_eq rfl rfl rfl
    by_cases hres : site.resyncs = true
    · -- the savepoint is on top: the turn schedules the array's own handler
      have hunwind : unwind y.frames = some (.resync site, y.frames) := by
        rw [hyframes, resyncFrame_eq hres]
        rfl
      have hfail : ({ y with result := r }.fail text).control = .run (.resync site) := by
        simp only [Machine.fail, hunwind]
      have hga : Good p ({ y with result := r }.fail text) := hv ▸ hg.step
      have hlike := hga.handler_settlesLike (by simp only [Machine.recovering, hfail]; rfl)
      have hflen : m.frames.length ≤ ({ y with result := r }.fail text).frames.length := by
        simp only [Machine.fail, hunwind]
        exact hvlen
      have hretry := retry_ends (n := n) hentry hlater (by omega) (fun n' hn' => ih n' (by omega)) hres hyloop hyframes hga
        hflen hlike (.of_eq rfl hheld rfl rfl)
      have hval : retryFrom p site limit later m n y.state =
          (elements p site.resyncs limit (moreElements p site.mode site.resyncs limit) later (n + 1) .fail P y.state >>=
            closeArray m) := by
        simp only [retryFrom, elements, Outcome.fail_bind, hres, if_neg (show ¬ true = false by decide)]
      rw [hval] at hretry
      exact .turn_to hlen hv hflen hretry
    · have hunwind : unwind y.frames = unwind m.frames := by
        rw [hyframes, show resyncFrame site y = [] from if_neg hres]
        rfl
      have hb : Behind p m { y with result := r } :=
        ⟨hunwind, hheld, hyloop.windows, extends_of_opened hyloop.scopes (scopesOf_ne_nil _)⟩
      have hval : elements p site.resyncs limit (moreElements p site.mode site.resyncs limit) later (n + 1) .fail P y.state =
          .fail := by
        simp only [elements, Outcome.fail_bind, if_pos (Bool.eq_false_of_not_eq_true hres)]
      rw [hval]
      exact .fail (.refl hlen) (by rw [← hv]; exact hg.step.settlesLike) hb

/-- **The question before a later element**, its answer, and what follows. -/
theorem question_ends (hentry : site.loopEntry.recovers = false)
    (hlater : ∀ x, Good p x → x.control = .run site.loopEntry → Sim p L 0 x (.arrayNext site) (later x.state))
    (hL : n ≤ L) (ih : ∀ n' < n, EntryEnds p site limit later m n')
    (hx : InLoop p site limit m w lf) (hframes : w.frames = resyncFrame site x ++ .loop lf :: m.frames)
    (hg : Good p w) (hctl : w.control = .run (.arrayNext site)) {s : St}
    (hs : s = { w.state with counter := w.state.counter.map (· + 1) }) :
    Ends p n m site.next w
      (loopFrom p site limit later m n (moreElements p site.mode site.resyncs limit s) later s) := by
  obtain ⟨y, hy, hstep⟩ := arrayNext_step (p := p) hctl hframes
  have hyframes : y.frames = resyncFrame site y ++ Frame.loop (Machine.LoopFrame.advance lf) :: m.frames := by rw [hy]; rfl
  have hyloop : InLoop p site limit m y (Machine.LoopFrame.advance lf) := by
    rw [hy]
    exact ⟨hx.held.of_eq rfl rfl rfl, hx.limit, hx.outerEnv, hx.windows, hx.scopes⟩
  have hstate : y.state = s := by
    have hc : w.state.counter = some lf.counter := by
      show loopCounter w.frames = _
      rw [hframes, loopCounter_resyncFrame]
    have hyc : loopCounter y.frames = some (lf.counter + 1) := by rw [hyframes, loopCounter_resyncFrame]; rfl
    rw [hs, hc]
    show ({ y.state with counter := loopCounter y.frames } : St) = _
    rw [hyc, hy]
    rfl
  have hlen : m.frames.length ≤ w.frames.length := by
    rw [hframes, List.length_append, List.length_cons]
    omega
  have hans := nextElement_answers (p := p) hyloop.held.depth hyframes
  rw [hyloop.limit, hstate] at hans
  have hends := answered_ends hentry hlater hL ih hlater hyloop hyframes hg hlen ⟨_, hctl⟩ hans hstep
  rwa [hstate] at hends

/-- **An element**, and what follows. -/
theorem entry_ends (hentry : site.loopEntry.recovers = false)
    (hlater : ∀ x, Good p x → x.control = .run site.loopEntry → Sim p L 0 x (.arrayNext site) (later x.state))
    (hL : n ≤ L) : EntryEnds p site limit later m n := by
  -- on the fuel: an element costs no turn, but the question after it and a retry do
  induction n using Nat.strong_induction_on with
  | _ n ih =>
    intro x lf entry P hx hctl hsim
    have hlen := hx.length
    have ih' : ∀ n' < n, EntryEnds p site limit later m n' := fun n' hn' => ih n' hn' (by omega)
    unfold loopFrom elements
    generalize P x.state = o at hsim
    cases hsim with
    | @ok m' hw hctl' hl =>
      have hg' := hx.good.within hw
      obtain ⟨pre, -, hwin⟩ := hl.windows
      obtain ⟨pre', hwin'⟩ := hx.loop.windows
      have hloop : InLoop p site limit m m' lf :=
        ⟨hg'.sound.held, hx.loop.limit, hx.loop.outerEnv, ⟨pre ++ pre', by rw [hwin, hwin', List.append_assoc]⟩,
          hx.loop.scopes.trans hl.scopes⟩
      have hends := question_ends hentry hlater hL ih' hloop (hl.frames.trans hx.frames) hg' hctl' rfl
      exact hends.within (hw.mono (by omega))
    | @fail w y text hw hlike hb =>
      have hw' : Within p m.frames.length x w := hw.mono (by omega)
      by_cases hres : site.resyncs = true
      · have hretry := retry_ends hentry hlater hL (fun n' hn' => ih' n' (by omega)) hres hx.loop hx.frames
          (hx.good.within hw) hw'.right hlike hb
        simp only [Outcome.ok_bind, hres, if_neg (show ¬ true = false by decide)]
        rw [retryFrom, hres] at hretry
        exact hretry.within hw'
      · obtain ⟨pre, hwin⟩ := hb.windows
        obtain ⟨pre', hwin'⟩ := hx.loop.windows
        have hunwind : unwind y.frames = unwind m.frames := by
          rw [hb.frames, hx.frames, show resyncFrame site x = [] from if_neg hres]
          rfl
        have hbm : Behind p m y :=
          ⟨hunwind, hb.held, ⟨pre ++ pre', by rw [hwin, hwin', List.append_assoc]⟩,
            (hb.scopes.of_grown hx.loop.scopes).outer (scopesOf_ne_nil _)⟩
        simp only [Outcome.ok_bind, Bool.eq_false_of_not_eq_true hres]
        exact .fail hw' hlike hbm
    | timeout hlast => exact .timeout (hlast.mono (by omega))
    | missing hw hctl' => exact .missing (hw.mono (by omega)) hctl'

/-! ## The array -/

/-- The array's scope and its loop, entered from a machine like `m`. -/
theorem InLoop.entered {b : Machine} (hb : Twin p m b) (r : Option Value) :
    InLoop p site limit m ({ b with result := r }.enterArray site limit) { counter := 0, limit, outerEnv := m.env } := by
  refine ⟨hb.held.of_eq rfl rfl rfl, rfl, rfl, ⟨[], congrArg St.windows hb.state⟩, ?_⟩
  have hscopes : scopesOf b.builder = scopesOf m.builder := congrArg St.scopes hb.state
  have hpos : b.pos = m.pos := congrArg St.pos hb.state
  show Grown _ (scopesOf (b.builder.beginArray (some site.arrayName) b.pos))
  rw [scopesOf_beginArray, hscopes, hpos]
  exact .refl _ _

theorem Machine.enterArray_frames {b : Machine} (hb : Twin p m b) (r : Option Value) :
    ({ b with result := r }.enterArray site limit).frames =
      .loop { counter := 0, limit, outerEnv := m.env } :: m.frames := by
  have henv : b.env = m.env := congrArg St.env hb.state
  show Frame.loop ⟨0, limit, b.env⟩ :: b.frames = _
  rw [henv, hb.frames]

theorem Machine.enterArray_state {b : Machine} (hb : Twin p m b) (r : Option Value) :
    ({ b with result := r }.enterArray site limit).state =
      { m.state.openScope .array site.arrayName with counter := some 0 } := by
  have hscopes := scopesOf_beginArray b.builder (some site.arrayName) b.pos
  rw [← hb.state]
  show ({ b.state with scopes := scopesOf (b.builder.beginArray (some site.arrayName) b.pos), counter := some 0 } : St) = _
  rw [hscopes]
  rfl

theorem Machine.pushResyncSavepoint_eq (y : Machine) :
    y.pushResyncSavepoint site = { y with frames := resyncFrame site y ++ y.frames } := by
  unfold Machine.pushResyncSavepoint LoopSite.resyncTarget resyncFrame
  split <;> rename_i h
  · split at h
    · cases h
    · rename_i hres
      rw [if_neg hres]
      rfl
  · split at h
    · rename_i hres
      cases h
      rw [if_pos hres]
      rfl
    · cases h

theorem Machine.armCount_twin {e : Expr} (hg : Good p m) : Twin p m (m.armCount e) := by
  unfold Machine.armCount
  split
  · exact ⟨rfl, rfl, hg.sound.held.of_eq rfl rfl rfl⟩
  · exact .refl hg

/-- The loop about to be asked for a first element. -/
theorem InLoop.begun {b : Machine} (hb : Twin p m b) (r : Option Value)
    (hy : y = ({ b with result := r }.enterArray site limit).pushResyncSavepoint site) :
    InLoop p site limit m y { counter := 0, limit, outerEnv := m.env } ∧
    y.frames = resyncFrame site y ++ .loop { counter := 0, limit, outerEnv := m.env } :: m.frames ∧
    y.state = { m.state.openScope .array site.arrayName with counter := some 0 } := by
  have hframes : ({ b with result := r }.enterArray site limit).frames = _ := Machine.enterArray_frames hb r
  have hstate : ({ b with result := r }.enterArray site limit).state = _ := Machine.enterArray_state hb r
  have hloop : InLoop p site limit m ({ b with result := r }.enterArray site limit) _ := .entered hb r
  generalize ({ b with result := r }.enterArray site limit) = x at hy hframes hstate hloop
  rw [Machine.pushResyncSavepoint_eq] at hy
  have hyframes : y.frames = resyncFrame site y ++ .loop { counter := 0, limit, outerEnv := m.env } :: m.frames := by
    rw [hy]
    show _ ++ x.frames = _
    rw [hframes]
    rfl
  refine ⟨?_, hyframes, ?_⟩
  · rw [hy]
    exact hloop.of_eq rfl rfl rfl rfl
  · have hc : loopCounter y.frames = loopCounter x.frames := by rw [hyframes, hframes, loopCounter_resyncFrame]; rfl
    rw [← hstate]
    show ({ y.state with counter := loopCounter y.frames } : St) = _
    rw [hc, hy]
    rfl

/-- **An array.** -/
theorem array_sim {body : Parser} (hg : Good p m) (hctl : m.control = .run (.beginArray site))
    (hentry : site.loopEntry.recovers = false)
    (hbody : ∀ x, Good p x → x.control = .run site.bodyHead → Sim p n 0 x (.arrayNext site) (body x.state))
    (hlater : ∀ x, Good p x → x.control = .run site.loopEntry → Sim p n 0 x (.arrayNext site) (later x.state)) :
    Sim p n 0 m site.next (parseArray p n site.arrayName site.mode site.resyncs body later m.state) := by
  have hstep : m.step p = m.beginArray p site := by simp only [Machine.step, hctl, Machine.exec]
  refine After.of_step hstep ?_
  obtain ⟨opened, hopened⟩ : ∃ s, s = { m.state.openScope .array site.arrayName with counter := some 0 } := ⟨_, rfl⟩
  have hanswered {limit : Int64} {y v b : Machine} {gate : Outcome Bool} (hb : Twin p m b) (r : Option Value)
      (hy : y = ({ b with result := r }.enterArray site limit).pushResyncSavepoint site)
      (hans : Answers site site.bodyHead y gate v) :
      After p n 0 m site.next v (loopFrom p site limit later m n gate body opened) := by
    intro hv
    obtain ⟨hyloop, hyframes, hystate⟩ := InLoop.begun hb r hy
    have hends := answered_ends hentry hlater (Nat.le_refl n) (fun n' hn' => entry_ends hentry hlater (by omega)) hbody
      hyloop hyframes hg (Nat.le_refl _) ⟨_, hctl⟩ hans hv
    rw [hystate, ← hopened] at hends
    exact hends.sim
  have hcounted (e : Expr) : After p n 0 m site.next (m.beginCounted p site e)
      (m.state.int p e >>= fun limit => loopFrom p site limit later m n (.ok (decide (limit > 0))) body opened) := by
    have hb : Twin p m (m.armCount e) := Machine.armCount_twin hg
    refine .consumeInt hg hb fun limit => ?_
    by_cases hlimit : limit > 0
    · rw [if_pos hlimit, decide_eq_true hlimit]
      exact hanswered hb _ rfl (.more _)
    · -- no element: the loop has no savepoint
      intro hstep
      rw [if_neg hlimit] at hstep
      rw [decide_eq_false hlimit]
      rcases n with _ | n
      · exact .timeout ⟨Nat.le_refl _, _, hctl⟩
      obtain ⟨x, hx⟩ : ∃ x, x = ({ m.armCount e with result := some (.int limit) }.enterArray site limit) := ⟨_, rfl⟩
      have hframes : x.frames = .loop { counter := 0, limit, outerEnv := m.env } :: m.frames := by
        rw [hx]
        exact Machine.enterArray_frames hb _
      have hloop : InLoop p site limit m x { counter := 0, limit, outerEnv := m.env } := by
        rw [hx]
        exact .entered hb _
      have hstate : x.state = opened := by
        rw [hx, hopened]
        exact Machine.enterArray_state hb _
      have hgo : InLoop p site limit m (x.go site.endNode) { counter := 0, limit, outerEnv := m.env } :=
        hloop.of_eq rfl rfl rfl rfl
      have hclose : Ends p n m site.next (x.go site.endNode) (closeArray m x.state) := close_ends hgo rfl (.inr hframes)
      rw [hstate] at hclose
      have hlen : m.frames.length ≤ (x.go site.endNode).frames.length := by
        show m.frames.length ≤ x.frames.length
        rw [hframes]
        exact Nat.le_succ _
      have hgone : m.step p = x.go site.endNode := by rw [hstep, hx]
      exact (Ends.turn_to (Nat.le_refl _) hgone hlen hclose).sim
  have hval : parseArray p n site.arrayName site.mode site.resyncs body later m.state =
      (arrayLimit p site.mode m.state >>= fun limit =>
        loopFrom p site limit later m n (firstElement p site.mode limit opened) body opened) := by
    rw [hopened]
    rfl
  have hm : Twin p m m := .refl hg
  rw [hval]
  unfold Machine.beginArray
  rcases site.mode with e | _ | e | e
  · exact hcounted e
  · obtain ⟨y, hy⟩ : ∃ y, y = ({ m with result := m.result }.enterArray site (-1)).pushResyncSavepoint site := ⟨_, rfl⟩
    obtain ⟨hyloop, -, hystate⟩ := InLoop.begun hm m.result hy
    rw [← hopened] at hystate
    have hans : Answers site site.bodyHead y (firstElement p .eof (-1) opened)
        (y.go (if y.pos ≥ y.effectiveEnd p then site.endNode else site.bodyHead)) := by
      unfold firstElement
      rw [← hystate, Machine.state_effectiveEnd hyloop.held.depth]
      exact .of_prop (y.pos ≥ y.effectiveEnd p)
    rw [hy] at hans
    exact hanswered hm m.result rfl hans
  · exact hcounted e
  · obtain ⟨y, hy⟩ : ∃ y, y = ({ m with result := m.result }.enterArray site (-1)).pushResyncSavepoint site := ⟨_, rfl⟩
    obtain ⟨hyloop, -, hystate⟩ := InLoop.begun hm m.result hy
    rw [← hopened] at hystate
    have hans : Answers site site.bodyHead y (firstElement p (.until e) (-1) opened)
        (y.untilCheck p site e site.bodyHead) := by
      unfold firstElement
      rw [← hystate]
      exact .until hyloop.held.depth
    rw [hy] at hans
    exact hanswered hm m.result rfl hans

end

end Bbq.Cek
