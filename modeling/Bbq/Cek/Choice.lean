import Bbq.Cek.Attempt

/-!
# Choices and calls

* `Trying p m x t`: `x` is at the start of an attempt made from `m`, whose savepoint has the handler `t`.
* `Trying.attempt`: the attempt, and what its handler does.
* `call_sim`: a rule, entered and left.
-/

namespace Bbq.Cek

open Zcow (Builder)

section

variable {p : Program} {L : Nat} {m x a s w z : Machine} {k t link entry : Kont} {o o' : Outcome St}

/-! ## Attempts -/

/-- `x` is `m` under a savepoint for `t`. -/
structure Trying (p : Program) (m x : Machine) (t : Kont) : Prop where
  good : Good p x
  frames : x.frames = .savepoint (x.savepoint (some t)) :: m.frames
  state : x.state = m.state
  within : Within p m.frames.length m x

theorem Trying.begin (hg : Good p m) (hstep : m.step p = (m.pushFrame (.savepoint (m.savepoint (some t)))).go k) :
    Trying p m (m.step p) t where
  good := hg.step
  frames := by rw [hstep]; rfl
  state := by rw [hstep]; rfl
  within := .one (Nat.le_refl _) (by rw [hstep]; exact Nat.le_succ _)

theorem Trying.length (h : Trying p m x t) : x.frames.length = m.frames.length + 1 := by
  rw [h.frames]
  rfl

/-- A kont that pops the savepoint on top. -/
def PopsTo (p : Program) (pop k : Kont) : Prop := ∀ m : Machine, m.exec p pop = m.popSavepoint.go k

/-- **An attempt**: it succeeds and its savepoint is popped, or its handler runs over the state that was saved. -/
theorem Trying.attempt (h : Trying p m x t) {pop : Kont} (hpop : PopsTo p pop k) (ht : t.recovers = true)
    (hsim : Sim p L 0 x pop o)
    (hfail : ∀ w z, Within p m.frames.length m w → Good p w → Handled p x t m.frames (w.step p) z →
      Sim p L 0 m k o') : Sim p L 0 m k (o.orElse o') := by
  have hlen := h.length
  have hscopes : scopesOf x.builder = scopesOf m.builder := congrArg St.scopes h.state
  have hwin : x.windows = m.windows := congrArg St.windows h.state
  cases hsim with
  | timeout hlast => exact .timeout (h.within.lasts (hlast.mono (by omega)))
  | missing hw hctl => exact .missing (h.within.trans (hw.mono (by omega))) hctl
  | @ok m' hw hctl hl =>
    have hframes := hl.frames.trans h.frames
    have hstep : m'.step p = { m' with frames := m.frames }.go k := by
      simp only [Machine.step, hctl]
      rw [hpop]
      simp only [Machine.popSavepoint, hframes]
      rfl
    have hlen' : m'.frames.length = m.frames.length + 1 := by rw [hframes]; rfl
    have hlast : Within p m.frames.length m' (m'.step p) := by
      refine .one (by omega) ?_
      rw [hstep]
      exact Nat.le_refl _
    obtain ⟨pre, hpre, hwin'⟩ := hl.windows
    refine .ok_at (h.within.trans ((hw.mono (by omega)).trans hlast)) (by rw [hstep]; rfl)
      ⟨by rw [hstep]; rfl, ⟨pre, hpre, ?_⟩, ?_⟩ ?_
    · rw [hstep, ← hwin]
      exact hwin'
    · rw [hstep, ← hscopes]
      exact hl.scopes
    · rw [hstep]
      have hcounter : loopCounter m.frames = loopCounter m'.frames := by rw [hframes]; rfl
      simp only [Machine.state, Machine.go, Machine.windows, hcounter]
  | @fail w y text hw hlike hb =>
    obtain ⟨z, hz⟩ := hb.handled h.good.sound.held h.frames ht hlike
    exact hfail w z (h.within.trans (hw.mono (by omega))) (h.good.within hw) hz

/-- A savepoint restored is one that would be taken again. -/
theorem Handled.savepoint (h : Handled p x t m.frames a z) (u : Kont) :
    (z.restoreTo (x.savepoint (some t))).savepoint (some u) = { x.savepoint (some t) with onFailTarget := some u } := by
  have hmark : (z.restoreTo (x.savepoint (some t))).builder.mark = x.builder.mark := by
    rw [mark_eq, mark_eq, h.scopes]
  have hsame : (z.restoreTo (x.savepoint (some t))).savepoint (some u) =
      { x.savepoint (some t) with
        captureMark := (z.restoreTo (x.savepoint (some t))).builder.mark, onFailTarget := some u } := rfl
  rw [hsame, hmark]
  rfl

/-- **The next attempt**, under the same savepoint with the handler after it. -/
theorem Handled.next (hz : Handled p x (.onFail (some entry) (some link) false) m.frames (w.step p) z)
    (hx : Trying p m x (.onFail (some entry) (some link) false)) (hentry : entry.recovers = false)
    (hw : Within p m.frames.length m w) (hg : Good p w) : ∃ s, Trying p m s link ∧ s.control = .run entry := by
  have hexec : z.exec p (.onFail (some entry) (some link) false) =
      { z.restoreTo (x.savepoint (some (.onFail (some entry) (some link) false))) with
        frames := .savepoint { x.savepoint (some (.onFail (some entry) (some link) false)) with
          onFailTarget := some link } :: m.frames }.go entry := by
    simp only [Machine.exec, Machine.onFail, hz.frames, splitSavepoint, Bool.false_eq_true, if_false, List.nil_append]
  have hlike := hz.like
  rw [hexec] at hlike
  obtain ⟨s, hs, hagree⟩ := hlike.reaches hentry
  have hframes : s.frames = .savepoint { x.savepoint (some (.onFail (some entry) (some link) false)) with
      onFailTarget := some link } :: m.frames := hagree.frames
  have hsp : s.savepoint (some link) = { x.savepoint (some (.onFail (some entry) (some link) false)) with
      onFailTarget := some link } := by
    rw [← hz.savepoint link]
    simp only [Machine.savepoint, hagree.env, hagree.pos, hagree.littleEndian, hagree.intervalDepth, hagree.builder]
    rfl
  refine ⟨s, ⟨hg.step.settles hs, by rw [hsp, hframes], ?_, ?_⟩, hagree.control⟩
  · rw [hagree.state, ← hx.state]
    exact hz.state (by rw [hx.frames]; rfl)
  · have hlen : m.frames.length ≤ s.frames.length := by
      rw [hframes]
      exact Nat.le_succ _
    refine hw.trans (.turn hw.right (hs.within hlen))

/-- **No attempt is left.** -/
theorem Handled.gives_up (hz : Handled p x exhausted m.frames (w.step p) z) (hx : Trying p m x exhausted)
    (hw : Within p m.frames.length m w) : Sim p L 0 m k .fail := by
  have hexec : z.exec p exhausted =
      { z.restoreTo (x.savepoint (some exhausted)) with frames := m.frames }.fail "alt exhausted" := by
    simp only [exhausted, Machine.exec, Machine.onFail, hz.frames, splitSavepoint]
  have hlike := hz.like
  rw [hexec] at hlike
  refine .fail hw hlike (.of_eq rfl (hz.held.of_eq rfl rfl rfl) ?_ ?_)
  · exact hz.windows.trans (congrArg St.windows hx.state)
  · exact hz.scopes.trans (congrArg St.scopes hx.state)

/-! ## Rule calls -/

/-- A rule's body under its return frame. -/
theorem Sim.called {rf : ReturnFrame} (hstep : m.step p = x) (hframes : x.frames = .return rf :: m.frames)
    (hreturn : rf.returnTo = k) (hstate : x.state = m.state) (hsim : Sim p L 0 x ruleExit o) :
    Sim p (L + 1) 0 m k (do return { ← o with env := rf.savedEnv }) := by
  have hlen : x.frames.length = m.frames.length + 1 := by rw [hframes]; rfl
  have hwin : x.windows = m.windows := congrArg St.windows hstate
  have hscopes : scopesOf x.builder = scopesOf m.builder := congrArg St.scopes hstate
  have hfirst : Within p m.frames.length m x := by
    rw [← hstep]
    exact .one (Nat.le_refl _) (by rw [hstep]; omega)
  cases hsim with
  | timeout hlast => exact .timeout ⟨Nat.le_refl _, by rw [hstep]; exact hlast.mono (by omega)⟩
  | missing hw hctl => exact .missing (hfirst.trans (hw.mono (by omega))) hctl
  | fail hw hlike hb =>
    refine .fail (hfirst.trans (hw.mono (by omega))) hlike ⟨?_, hb.held, hwin ▸ hb.windows, hscopes ▸ hb.scopes⟩
    rw [hb.frames, hframes]
    rfl
  | @ok m' hw hctl hl =>
    have hframes' := hl.frames.trans hframes
    have hstep' : m'.step p = { m' with frames := m.frames, env := rf.savedEnv }.go k := by
      simp only [Machine.step, hctl, ruleExit, Machine.exec, Machine.returnRule, hframes', hreturn]
    have hlen' : m'.frames.length = m.frames.length + 1 := by rw [hframes']; rfl
    have hlast : Within p m.frames.length m' (m'.step p) := by
      refine .one (by omega) ?_
      rw [hstep']
      exact Nat.le_refl _
    obtain ⟨pre, hpre, hwin'⟩ := hl.windows
    refine .ok_at (hfirst.trans ((hw.mono (by omega)).trans hlast)) (by rw [hstep']; rfl)
      ⟨by rw [hstep']; rfl, ⟨pre, hpre, ?_⟩, ?_⟩ ?_
    · rw [hstep', ← hwin]
      exact hwin'
    · rw [hstep', ← hscopes]
      exact hl.scopes
    · rw [hstep']
      have hcounter : loopCounter m.frames = loopCounter m'.frames := by rw [hframes']; rfl
      simp only [Machine.state, Machine.go, Machine.windows, hcounter]

end

end Bbq.Cek
