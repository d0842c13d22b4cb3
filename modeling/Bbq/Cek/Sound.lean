import Bbq.Cek.Fit

/-!
# Every reachable state fits its scopes

`Sound` is the invariant of the machine: the kont in control is typed in scopes that the frames,
windows and capture scopes fit (`Fit`), or it is a failure handler about to run at the savepoint it
belongs to.

It holds in runs that are *clean*: whenever a `where` fails by its static edge, the first savepoint
is not one left standing by a choice in its last arm, and, unless the edge leads out of an
optional, no loop frame stands over it (`CleanEdge`). With `strict`, the run also seeks
only within the window and no external parser reports more than was left (`Guarded`), and the
offsets are confined too.

* **`Sound.step`**, `Sound.run`: one turn of the trampoline preserves it, and so every clean run does.
-/

namespace Bbq.Cek

open Zcow (Builder)

/-! ## Clean failure edges -/

/-- Whether a failure handler drops the savepoint it restores. -/
def Kont.popsFrame : Kont → Bool
  | .onFail _ _ popFrame => popFrame
  | _ => false

/-- A failure handler: a kont only a failure leads to. -/
def Kont.recovers : Kont → Bool
  | .onFail _ _ _ | .resync _ | .abortRule => true
  | _ => false

/-- The first savepoint has another arm to try, and is on top unless it is dropped. -/
def CleanRecovery (k : Kont) (F : List Frame) : Prop :=
  ∀ above sp below, splitSavepoint F = some (above, sp, below) →
    sp.onFailTarget ≠ some exhausted ∧ (above = [] ∨ k.popsFrame = true)

/-- The same where the edge leads: for an abort, under the call it returns past. -/
def CleanEdge (onFalse : Kont) (F : List Frame) : Prop :=
  match onFalse with
  | .onFail _ _ _ | .resync _ => CleanRecovery onFalse F
  | .abortRule => ∀ target F', abortTarget F = some (target, F') → CleanRecovery target F'
  | _ => True

namespace Machine

variable (p : Program)

/-- The constraint in control is about to fail. -/
def Refutes (m : Machine) (e : Expr) : Prop :=
  ∃ v, eval (m.view p) e = .ok v ∧ coerceToBool v = some false

/-- No static edge is taken from this state that is not clean. -/
def Clean (m : Machine) : Prop :=
  ∀ e onFalse next, m.control = .run (.evalConstraint e onFalse next) → m.Refutes p e →
    CleanEdge onFalse m.frames

/-- The seek from this state stays in the window, and the external parser in what is left. -/
structure Guarded (m : Machine) : Prop where
  seek : ∀ e next target, m.control = .run (.seek e next) →
    eval (m.view p) e = .ok (some (.int target)) → 0 ≤ target →
    target.toInt.toNat ≤ p.bytes.length →
    m.effectiveStart ≤ target.toInt.toNat ∧ target.toInt.toNat ≤ m.effectiveEnd p
  external : ∀ funcName next table fn consumed, m.control = .run (.externalCall funcName next) →
    p.externs = some table → table funcName = some fn →
    fn (p.bytes.drop m.pos) (sizeSub (m.effectiveEnd p) m.pos) = some consumed →
    consumed ≤ m.effectiveEnd p - m.pos

end Machine

/-! ## The invariant -/

section

variable (strict : Prop) (p : Program)

/-- The windows are well formed and nested, and the cursor is in the active one. -/
structure Held (m : Machine) : Prop where
  depth : m.intervalDepth ≤ m.intervals.length
  nested : NestedAll p.bytes.length m.windows
  pos : Inside strict p.bytes.length m.windows m.pos

/-- `n` bytes are left in the window. -/
def Room (m : Machine) (n : Nat) : Prop := strict → m.pos + n ≤ (bounds p.bytes.length m.windows).2

/-- The frames, windows and capture scopes of a machine fit the scopes. -/
abbrev Stands (Γ : List Scope) (m : Machine) : Prop :=
  Fit strict p.bytes.length Γ m.frames m.windows (scopesOf m.builder)

/-- The kont in control is in its place. -/
inductive InPlace (m : Machine) : Prop
  | typed {Γ n k} :
      m.control = .run k → Typed strict Γ n k → Room strict p m n → Stands strict p Γ m → InPlace m
  | stores {Γ n k c} :
      m.control = .run k → Stores strict Γ n k → Room strict p m n → Stands strict p Γ m →
      m.result = some (.capture c) →
      Inside strict p.bytes.length m.windows c.leaf.startOffset →
      Inside strict p.bytes.length m.windows c.leaf.endOffset → InPlace m
  | recovers {Γ k above sp below} :
      m.control = .run k →
      Fit.Over strict p.bytes.length Γ m.frames m.windows (scopesOf m.builder) →
      splitSavepoint m.frames = some (above, sp, below) → sp.onFailTarget = some k →
      (above = [] ∨ k.popsFrame = true) → InPlace m
  | aborts {Γ} :
      m.control = .run .abortRule → Stands strict p Γ m → backtrackTarget Γ = none →
      CleanEdge .abortRule m.frames → InPlace m
  | done : m.control = .done → InPlace m
  | failed : m.control = .failed → InPlace m

/-- **The invariant.** -/
structure Sound (m : Machine) : Prop where
  held : Held strict p m
  inPlace : InPlace strict p m

end

section

variable {strict : Prop} {p : Program} {m : Machine} {Γ : List Scope}

/-! ## What konts share -/

theorem Held.of_eq {m' : Machine} (h : Held strict p m) (hi : m'.intervals = m.intervals)
    (hd : m'.intervalDepth = m.intervalDepth) (hp : m'.pos = m.pos) : Held strict p m' := by
  have hw : m'.windows = m.windows := by simp [Machine.windows, hi, hd]
  exact ⟨by rw [hi, hd]; exact h.depth, hw ▸ h.nested, by rw [hw, hp]; exact h.pos⟩

theorem Held.bounds_le (h : Held strict p m) : (bounds p.bytes.length m.windows).2 ≤ p.bytes.length := by
  have := h.nested
  generalize m.windows = W at this
  induction W with
  | nil => exact Nat.le_refl _
  | cons w W ih => exact Nat.le_trans this.1.hi (ih this.2)

theorem Sound.go {n : Nat} {k : Kont} (h : Held strict p m) (hf : Stands strict p Γ m)
    (hk : Typed strict Γ n k) (hroom : Room strict p m n) : Sound strict p (m.go k) :=
  ⟨h.of_eq rfl rfl rfl, .typed rfl hk hroom hf⟩

/-- No bytes are needed to be left. -/
theorem Held.room (h : Held strict p m) : Room strict p m 0 := fun hs => (h.pos hs).2

theorem Sound.go_zero {k : Kont} (h : Held strict p m) (hf : Stands strict p Γ m)
    (hk : Typed strict Γ 0 k) : Sound strict p (m.go k) :=
  .go h hf hk h.room

/-- Failing lands at a savepoint, or ends the parse. -/
theorem Sound.fail_over (message : String) (h : Held strict p m)
    (hf : Fit.Over strict p.bytes.length Γ m.frames m.windows (scopesOf m.builder)) :
    Sound strict p (m.fail message) := by
  obtain ⟨preW, W', preS, S', hW, hS, hfit⟩ := hf
  unfold Machine.fail
  rcases hfit.unwind with hu | ⟨k, sp, below, Δ, hu, ht, hov⟩
  · rw [hu]
    exact ⟨h.of_eq rfl rfl rfl, .failed rfl⟩
  · rw [hu]
    have hov' : Fit.Over strict p.bytes.length Δ (.savepoint sp :: below) (preW ++ W') (preS ++ S') :=
      hov.append
    rw [← hW, ← hS] at hov'
    have hsplit : splitSavepoint (.savepoint sp :: below) = some ([], sp, below) := rfl
    exact ⟨h.of_eq rfl rfl rfl, .recovers rfl hov' hsplit ht (.inl rfl)⟩

theorem Sound.fail (message : String) (h : Held strict p m) (hf : Stands strict p Γ m) :
    Sound strict p (m.fail message) :=
  .fail_over message h hf.over_self

theorem Sound.consume {e : Expr} {f : Machine → Option Value → Machine} (h : Held strict p m)
    (hf : Stands strict p Γ m)
    (hc : ∀ v, eval (m.view p) e = .ok v → Sound strict p (f { m with result := v } v)) :
    Sound strict p (m.consume p e f) := by
  unfold Machine.consume
  split
  · exact .fail _ h hf
  · rename_i v hv
    exact hc v hv

theorem Sound.consumeInt {e : Expr} {text : String} {f : Machine → Int64 → Machine}
    (h : Held strict p m) (hf : Stands strict p Γ m)
    (hc : ∀ i, eval (m.view p) e = .ok (some (.int i)) →
      Sound strict p (f { m with result := some (.int i) } i)) :
    Sound strict p (m.consumeInt p e text f) := by
  refine .consume h hf fun v hv => ?_
  split
  · exact hc _ hv
  · exact .fail _ (h.of_eq rfl rfl rfl) hf

theorem Sound.consumeBool {e : Expr} {text : String} {f : Machine → Bool → Machine}
    (h : Held strict p m) (hf : Stands strict p Γ m)
    (hc : ∀ v b, eval (m.view p) e = .ok v → coerceToBool v = some b →
      Sound strict p (f { m with result := v } b)) :
    Sound strict p (m.consumeBool p e text f) := by
  refine .consume h hf fun v hv => ?_
  split
  · rename_i b hb
    exact hc v b hv hb
  · exact .fail _ (h.of_eq rfl rfl rfl) hf

/-- A carrier whose span is inside the window, before the konts that store it. -/
theorem Sound.produce {n : Nat} {k : Kont} {leaf : Leaf} (h : Held strict p m)
    (hf : Stands strict p Γ m) (hk : Stores strict Γ n k) (hroom : Room strict p m n)
    (hstart : Inside strict p.bytes.length m.windows leaf.startOffset)
    (hstop : Inside strict p.bytes.length m.windows leaf.endOffset) :
    Sound strict p (m.produce leaf k) :=
  ⟨h.of_eq rfl rfl rfl, .stores rfl hk hroom hf rfl hstart hstop⟩

/-- The cursor moved forward within the window. -/
theorem Held.advance {stop : Nat} (h : Held strict p m)
    (hstop : strict → m.pos ≤ stop ∧ stop ≤ (bounds p.bytes.length m.windows).2) :
    Held strict p { m with pos := stop } :=
  ⟨h.depth, h.nested, fun hs => ⟨Nat.le_trans (h.pos hs).1 (hstop hs).1, (hstop hs).2⟩⟩

/-- Adding what fits before the input's end does not wrap. -/
theorem Held.sizeAdd_eq {n : Nat} (h : Held strict p m) (hs : strict) (hn : n < 2 ^ 63) :
    sizeAdd m.pos n = m.pos + n := by
  have hpos := (h.pos hs).2
  have hle := h.bounds_le
  have hsmall := p.small
  exact Nat.mod_eq_of_lt (by omega)

/-! ## Savepoints -/

theorem savepoint_saved (target : Option Kont) (h : Held strict p m) :
    Saved strict p.bytes.length (m.savepoint target) m.windows (scopesOf m.builder) :=
  ⟨(Machine.length_windows h.depth).symm, mark_eq m.builder, h.pos⟩

/-- A savepoint pushed on entering a scope. -/
theorem Stands.pushSavepoint {sc : Scope} {target : Kont} (h : Held strict p m)
    (hf : Stands strict p Γ m) (ha : Aims strict Γ sc target) :
    Stands strict p (sc :: Γ) (m.pushFrame (.savepoint (m.savepoint (some target)))) := by
  obtain ⟨o, R, hS⟩ := hf.exists_cons
  have hg : Grown (scopesOf m.builder) (scopesOf m.builder) := by
    rw [hS]
    exact .refl o R
  exact .save hf hg (savepoint_saved _ h) ha rfl

/-- A scope left with success pops its savepoint. -/
theorem Stands.popSavepoint {sc : Scope} (hf : Stands strict p (sc :: Γ) m)
    (hsc : sc ≠ .struct ∧ sc ≠ .loop ∧ sc ≠ .window) :
    Stands strict p Γ m.popSavepoint ∧ m.popSavepoint.intervals = m.intervals ∧
      m.popSavepoint.intervalDepth = m.intervalDepth ∧ m.popSavepoint.pos = m.pos := by
  obtain ⟨sp, F', target, hF, -, -, hfit⟩ := hf.inv_save hsc
  simp only [Machine.popSavepoint, hF]
  exact ⟨hfit, trivial, trivial, trivial⟩

/-- What a savepoint brings back. -/
theorem restoreTo_spec {preW W : List Window} {preS S₁ S₀ : List OpenScope} {sp : Savepoint}
    (h : Held strict p m) (hW : m.windows = preW ++ W) (hS : scopesOf m.builder = preS ++ S₁)
    (hg : Grown S₀ S₁) (hsv : Saved strict p.bytes.length sp W S₀) :
    Held strict p (m.restoreTo sp) ∧ (m.restoreTo sp).windows = W ∧
      scopesOf (m.restoreTo sp).builder = S₀ := by
  have hwin : (m.restoreTo sp).windows = W := by
    simp only [Machine.restoreTo, Machine.windows, hsv.depth]
    exact Machine.windows_restore h.depth hW
  refine ⟨⟨?_, ?_, ?_⟩, hwin, ?_⟩
  · have hlen := Machine.length_windows h.depth
    have hd := h.depth
    rw [hW, List.length_append] at hlen
    simp only [Machine.restoreTo, hsv.depth]
    omega
  · rw [hwin]
    exact (hW ▸ h.nested).suffix
  · rw [hwin]
    exact hsv.pos
  · simp only [Machine.restoreTo, scopesOf_restore, hsv.mark, hS]
    exact restoreScopes_markOf hg

/-! ## Failure handlers -/

/-- `ResyncKont` at its savepoint: the next byte, or the end of the array. -/
theorem Sound.resync {site : LoopSite} {sp : Savepoint} {below : List Frame} {preW W : List Window}
    {preS S₁ S₀ : List OpenScope} (h : Held strict p m) (hW : m.windows = preW ++ W)
    (hS : scopesOf m.builder = preS ++ S₁) (hg : Grown S₀ S₁)
    (hsv : Saved strict p.bytes.length sp W S₀) (htgt : sp.onFailTarget = some (.resync site))
    (hsplit : splitSavepoint m.frames = some ([], sp, below)) (hres : site.resyncs = true)
    (hpl : Placed strict site Γ)
    (hfit : Fit strict p.bytes.length (.loop :: Γ) below W S₀) :
    Sound strict p (m.resync p site) := by
  obtain ⟨hr, hwin, hsc⟩ := restoreTo_spec h hW hS hg hsv
  have hend : (m.restoreTo sp).effectiveEnd p = (bounds p.bytes.length W).2 := by
    rw [Machine.effectiveEnd_eq hr.depth, hwin]
  have hstands : Stands strict p (.loop :: Γ) { m.restoreTo sp with frames := below } := by
    rw [← hwin, ← hsc] at hfit
    exact hfit
  simp only [Machine.resync, hsplit]
  split
  · split
    · exact .fail _ (hr.of_eq rfl rfl rfl) hstands
    · exact .go_zero (hr.of_eq rfl rfl rfl) hstands (LoopSite.endNode_typed hpl).2
  · rename_i hlt
    have hnext : Held strict p { m.restoreTo sp with pos := (m.restoreTo sp).pos + 1 } := by
      refine hr.advance fun _ => ⟨Nat.le_succ _, ?_⟩
      rw [hwin, ← hend]
      omega
    have hbase : Stands strict p (.loop :: Γ)
        { m.restoreTo sp with pos := (m.restoreTo sp).pos + 1, frames := below } := hstands
    have haims : Aims strict (.loop :: Γ) (.site site) (.resync site) := .site hres hpl
    have hpush := Stands.pushSavepoint
      (m := { m.restoreTo sp with pos := (m.restoreTo sp).pos + 1, frames := below })
      (hnext.of_eq rfl rfl rfl) hbase haims
    have htyped := loopEntry_typed hpl
    simp only [LoopSite.scopes, hres, if_true] at htyped
    simp only [List.nil_append, htgt]
    exact .go_zero (hnext.of_eq rfl rfl rfl) hpush htyped

/-- A failure handler at its own savepoint. -/
theorem Sound.recover {k : Kont} {above below : List Frame} {sp : Savepoint}
    (h : Held strict p m)
    (hov : Fit.Over strict p.bytes.length Γ m.frames m.windows (scopesOf m.builder))
    (hsplit : splitSavepoint m.frames = some (above, sp, below)) (ht : sp.onFailTarget = some k)
    (htop : above = [] ∨ k.popsFrame = true) : Sound strict p (m.exec p k) := by
  obtain ⟨preW, W', preS, S', hW, hS, hfit⟩ := hov
  obtain ⟨preW', W, preS', S₁, S₀, Δ, sc, target, rfl, rfl, hg, hat⟩ := hfit.split hsplit
  rw [← List.append_assoc] at hW hS
  obtain ⟨hr, hwin, hsc⟩ := restoreTo_spec h hW hS hg hat.saved
  obtain rfl : target = k := Option.some.inj (hat.target.symm.trans ht)
  have hbelow : Stands strict p Δ { m.restoreTo sp with frames := below } := by
    have := hat.fit
    rw [← hwin, ← hsc] at this
    exact this
  have hagain : ∀ {sc next}, Aims strict Δ sc next → Stands strict p (sc :: Δ)
      { m.restoreTo sp with
        frames := .savepoint { sp with onFailTarget := some next } :: below } := by
    intro sc next ha
    obtain ⟨o, R, hS₀⟩ := hbelow.exists_cons
    have hgr : Grown S₀ (scopesOf (m.restoreTo sp).builder) := by
      rw [hsc, ← hsc, hS₀]
      exact .refl o R
    have hfit' : Fit strict p.bytes.length Δ below (m.restoreTo sp).windows S₀ := by
      rw [hwin]
      exact hat.fit
    have hsaved : Saved strict p.bytes.length { sp with onFailTarget := some next }
        (m.restoreTo sp).windows S₀ := by
      rw [hwin]
      exact ⟨hat.saved.depth, hat.saved.mark, hat.saved.pos⟩
    exact .save hfit' hgr hsaved ha rfl
  cases hat.aims with
  | arm hl =>
    cases hl with
    | last htyped =>
      obtain rfl := htop.resolve_right (by simp [Kont.popsFrame])
      simp only [Machine.exec, Machine.onFail, hsplit]
      exact .go_zero (hr.of_eq rfl rfl rfl) (hagain .lastArm) htyped
    | next hl htyped =>
      obtain rfl := htop.resolve_right (by simp [Kont.popsFrame])
      simp only [Machine.exec, Machine.onFail, hsplit]
      exact .go_zero (hr.of_eq rfl rfl rfl) (hagain (.arm hl)) htyped
  | lastArm =>
    simp only [exhausted, Machine.exec, Machine.onFail, hsplit]
    exact .fail _ (hr.of_eq rfl rfl rfl) hbelow
  | opt htyped =>
    simp only [Machine.exec, Machine.onFail, hsplit, if_true]
    exact .go_zero (hr.of_eq rfl rfl rfl) hbelow htyped
  | site hres hpl =>
    obtain rfl := htop.resolve_right (by simp [Kont.popsFrame])
    exact .resync h hW hS hg hat.saved hat.target hsplit hres hpl hat.fit

/-- A failure target is a handler that has a savepoint. -/
theorem Fit.aims_backtrackTarget {F : List Frame} {W : List Window} {S : List OpenScope} {t : Kont}
    (h : Fit strict p.bytes.length Γ F W S) (ht : backtrackTarget Γ = some t) :
    ∃ Δ sc, Aims strict Δ sc t ∧ sc ≠ .lastArm := by
  induction h with
  | bottom => cases ht
  | call => cases ht
  | struct _ _ ih => exact ih ht
  | loop _ _ ih => exact ih ht
  | window _ ih => exact ih ht
  | leak _ _ ih => exact ih ht
  | save _ _ _ ha htgt ih =>
    cases ha with
    | arm hl =>
      cases ht
      exact ⟨_, _, .arm hl, by simp⟩
    | lastArm => exact ih ht
    | opt hk =>
      cases ht
      exact ⟨_, _, .opt hk, by simp⟩
    | site hres hp =>
      cases ht
      exact ⟨_, _, .site hres hp, by simp⟩

theorem CleanEdge.recovery {Δ : List Scope} {sc : Scope} {t : Kont} {F : List Frame}
    (ha : Aims strict Δ sc t) (h : CleanEdge t F) : CleanRecovery t F := by
  cases ha with
  | arm hl =>
    cases hl with
    | last => exact h
    | next => exact h
  | lastArm => exact h
  | opt => exact h
  | site => exact h

/-- Where a clean edge leads, the handler is at its own savepoint. -/
theorem Fit.Over.recovers {F : List Frame} {W : List Window} {S : List OpenScope} {t : Kont}
    (hov : Fit.Over strict p.bytes.length Γ F W S) (ht : backtrackTarget Γ = some t)
    (hclean : CleanRecovery t F) :
    ∃ above sp below, splitSavepoint F = some (above, sp, below) ∧ sp.onFailTarget = some t ∧
      (above = [] ∨ t.popsFrame = true) := by
  obtain ⟨preW, W', preS, S', -, -, hfit⟩ := hov
  obtain ⟨above, sp, below, hsplit, htgt⟩ := hfit.split_target ht
  obtain ⟨hlast, htop⟩ := hclean above sp below hsplit
  exact ⟨above, sp, below, hsplit, htgt.resolve_left hlast, htop⟩

/-- Taking a clean failure edge. -/
theorem Sound.failEdge (h : Held strict p m) (hf : Stands strict p Γ m)
    (hclean : CleanEdge (failEdge Γ) m.frames) : Sound strict p (m.go (failEdge Γ)) := by
  rcases ht : backtrackTarget Γ with _ | t
  · have hedge : Cek.failEdge Γ = .abortRule := by simp [Cek.failEdge, ht]
    rw [hedge] at hclean ⊢
    exact ⟨h.of_eq rfl rfl rfl, .aborts rfl hf ht hclean⟩
  · have hedge : Cek.failEdge Γ = t := by simp [Cek.failEdge, ht]
    rw [hedge] at hclean ⊢
    obtain ⟨Δ, sc, ha, -⟩ := hf.aims_backtrackTarget ht
    obtain ⟨above, sp, below, hsplit, htgt, htop⟩ := hf.over_self.recovers ht (hclean.recovery ha)
    exact ⟨h.of_eq rfl rfl rfl, .recovers rfl hf.over_self hsplit htgt htop⟩

/-- `AbortRuleKont`: to the caller's handler, or the end of the parse. -/
theorem Sound.abortRule (h : Held strict p m) (hf : Stands strict p Γ m)
    (hnone : backtrackTarget Γ = none) (hclean : CleanEdge .abortRule m.frames) :
    Sound strict p m.abortRule := by
  unfold Machine.abortRule
  split
  · rename_i t F' ha
    obtain ⟨Δ, hov, ht⟩ := hf.abort hnone ha
    obtain ⟨above, sp, below, hsplit, htgt, htop⟩ := hov.recovers ht (hclean t F' ha)
    exact ⟨h.of_eq rfl rfl rfl, .recovers rfl hov hsplit htgt htop⟩
  · exact .fail _ h hf

/-- A savepoint's target is a failure handler. -/
theorem Aims.recovers {sc : Scope} {k : Kont}
    (h : Aims strict Γ sc k) : k.recovers = true := by
  cases h with
  | arm hl =>
    cases hl with
    | last => rfl
    | next => rfl
  | lastArm => rfl
  | opt => rfl
  | site => rfl

/-- A kont that no failure leads to is in its scopes. -/
theorem Sound.standing {k : Kont} (h : Sound strict p m) (hctl : m.control = .run k)
    (hk : k.recovers = false) :
    (∃ Γ n, Typed strict Γ n k ∧ Stands strict p Γ m) ∨
    ∃ Γ n c, Stores strict Γ n k ∧ m.result = some (.capture c) ∧
      Inside strict p.bytes.length m.windows c.leaf.startOffset ∧
      Inside strict p.bytes.length m.windows c.leaf.endOffset := by
  cases h.inPlace with
  | typed hctl' ht hroom hf =>
    cases hctl.symm.trans hctl'
    exact .inl ⟨_, _, ht, hf⟩
  | stores hctl' hst hroom hf hres hstart hstop =>
    cases hctl.symm.trans hctl'
    exact .inr ⟨_, _, _, hst, hres, hstart, hstop⟩
  | recovers hctl' hov hsplit ht htop =>
    cases hctl.symm.trans hctl'
    obtain ⟨preW, W', preS, S', -, -, hfit⟩ := hov
    obtain ⟨_, _, _, _, _, Δ, sc, target, _, _, _, hat⟩ := hfit.split hsplit
    obtain rfl : target = k := Option.some.inj (hat.target.symm.trans ht)
    rw [hat.aims.recovers] at hk
    cases hk
  | aborts hctl' =>
    cases hctl.symm.trans hctl'
    cases hk
  | done hctl' => cases hctl.symm.trans hctl'
  | failed hctl' => cases hctl.symm.trans hctl'

end

end Bbq.Cek
