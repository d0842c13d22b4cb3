import Bbq.Cek.Refine

/-!
# Attempts

A construct run under a savepoint: an optional, an arm of a choice. When it fails, the handler finds the
savepoint on top and everything as it was saved (`Behind.handled`), whichever way the failure took.

* `optional_sim`: an optional is its body, or nothing.
-/

namespace Bbq.Cek

open Zcow (Builder)

section

variable {p : Program} {L n : Nat} {m x y a s : Machine} {k t : Kont} {F : List Frame}

/-! ## Handlers only pop -/

theorem splitSavepoint_eq {F above below : List Frame} {sp : Savepoint}
    (h : splitSavepoint F = some (above, sp, below)) : F = above ++ .savepoint sp :: below := by
  induction F generalizing above with
  | nil => cases h
  | cons f F ih =>
    have hcons : (splitSavepoint F).map (fun x => (f :: x.1, x.2)) =
        some (above, sp, below) → f :: F = above ++ .savepoint sp :: below := fun h => by
      obtain ⟨⟨above', sp', below'⟩, hs, heq⟩ := Option.map_eq_some_iff.1 h
      cases heq
      rw [ih hs]
      rfl
    rcases f with _ | sp' | _
    · exact hcons h
    · cases h
      rfl
    · exact hcons h

theorem Machine.recovering_shrinks (hm : m.recovering = true) :
    (m.step p).frames.length ≤ m.frames.length := by
  have hfail : ∀ {m' : Machine} {text : String}, m'.frames.length ≤ m.frames.length →
      (m'.fail text).frames.length ≤ m.frames.length := fun h => (fail_length _).trans h
  unfold Machine.recovering at hm
  unfold Machine.step
  rcases hctl : m.control with k | _ | _
  · rw [hctl] at hm
    cases k with
    | onFail target next pop =>
      simp only [Machine.exec, Machine.onFail]
      rcases hsplit : splitSavepoint m.frames with _ | ⟨above, sp, below⟩
      · exact fail_length _
      · have heq := congrArg List.length (splitSavepoint_eq hsplit)
        rw [List.length_append, List.length_cons] at heq
        rcases target with _ | target
        · exact hfail (show below.length ≤ m.frames.length by omega)
        · rcases pop with _ | _
          · show (above ++ Frame.savepoint _ :: below).length ≤ m.frames.length
            rw [List.length_append, List.length_cons]
            omega
          · show below.length ≤ m.frames.length
            omega
    | resync site =>
      simp only [Machine.exec, Machine.resync]
      rcases hsplit : splitSavepoint m.frames with _ | ⟨above, sp, below⟩
      · exact fail_length _
      · have heq := congrArg List.length (splitSavepoint_eq hsplit)
        rw [List.length_append, List.length_cons] at heq
        have hbelow : below.length ≤ m.frames.length := by omega
        simp only
        split
        · split
          · exact hfail hbelow
          · exact hbelow
        · show (above ++ Frame.savepoint _ :: below).length ≤ m.frames.length
          rw [List.length_append, List.length_cons]
          omega
    | abortRule =>
      simp only [Machine.exec, Machine.abortRule]
      rcases ha : abortTarget m.frames with _ | ⟨t, F⟩
      · exact fail_length _
      · exact Nat.le_of_lt (abortTarget_length ha)
    | _ => cases hm
  · exact Nat.le_refl _
  · exact Nat.le_refl _

theorem Settles.shrinks (h : Settles p m s) : s.frames.length ≤ m.frames.length := by
  induction h with
  | here => exact Nat.le_refl _
  | turn hm _ ih => exact ih.trans (Machine.recovering_shrinks hm)

theorem Settles.within (h : Settles p m s) (hn : n ≤ s.frames.length) : Within p n m s := by
  induction h with
  | here => exact .refl hn
  | turn hm hs ih => exact .turn (hn.trans (Settles.turn hm hs).shrinks) (ih hn)

/-! ## The handler of a savepoint -/

theorem Agrees.state (h : Agrees m s) : m.state = s.state := by
  simp [Machine.state, Machine.windows, h.pos, h.env, h.intervals, h.intervalDepth, h.littleEndian,
    h.builder, h.frames]

/-- What settles like a machine that has settled reaches it. -/
theorem SettlesLike.reaches (h : SettlesLike p m y) (hno : y.recovering = false) :
    ∃ s, Settles p m s ∧ Agrees s y := by
  obtain ⟨s, d, hs, hd, hagree⟩ := h
  cases hd with
  | here => exact ⟨s, hs, hagree⟩
  | turn hyes => exact absurd hyes (by simp [hno])

/-- A failure behind `x`, whose savepoint is on top: its handler runs, and restores `x`. -/
structure Handled (p : Program) (x : Machine) (t : Kont) (F : List Frame) (a z : Machine) : Prop where
  like : SettlesLike p a (z.exec p t)
  frames : z.frames = .savepoint (x.savepoint (some t)) :: F
  held : Held False p (z.restoreTo (x.savepoint (some t)))
  windows : (z.restoreTo (x.savepoint (some t))).windows = x.windows
  scopes : scopesOf (z.restoreTo (x.savepoint (some t))).builder = scopesOf x.builder

theorem Behind.handled {text : String} (hb : Behind p x y) (hx : Held False p x)
    (hframes : x.frames = .savepoint (x.savepoint (some t)) :: F) (ht : t.recovers = true)
    (hlike : SettlesLike p a (y.fail text)) : ∃ z, Handled p x t F a z := by
  have hunwind : unwind y.frames = some (t, .savepoint (x.savepoint (some t)) :: F) := by
    rw [hb.frames, hframes]
    rfl
  obtain ⟨z, hz⟩ : ∃ z : Machine, z = { y.noteError text with
      frames := .savepoint (x.savepoint (some t)) :: F, control := .run t } := ⟨_, rfl⟩
  have hfail : y.fail text = z := by simp only [Machine.fail, hunwind, hz]
  obtain ⟨pre, hwin⟩ := hb.windows
  obtain ⟨preS, S₁, hS, hg⟩ := hb.scopes
  have hheld : Held False p z := hb.held.of_eq (by rw [hz]; rfl) (by rw [hz]; rfl) (by rw [hz]; rfl)
  have hW : z.windows = pre ++ x.windows := by rw [hz]; exact hwin
  have hS' : scopesOf z.builder = preS ++ S₁ := by rw [hz]; exact hS
  obtain ⟨hr, hwin', hsc⟩ := restoreTo_spec hheld hW hS' hg (savepoint_saved (some t) hx)
  refine ⟨z, ?_, by rw [hz], hr, hwin', hsc⟩
  rw [hfail] at hlike
  have hrec : z.recovering = true := by rw [hz]; exact ht
  have hstep : z.step p = z.exec p t := by simp only [Machine.step, hz]
  obtain ⟨s, d, hs, hd, hagree⟩ := hlike
  cases hd with
  | here hno => exact absurd hrec (by simp [hno])
  | turn _ hd => exact ⟨s, d, hs, hstep ▸ hd, hagree⟩

/-- Restored, over other frames with the same loops. -/
theorem Handled.state {z : Machine} {F' : List Frame} (h : Handled p x t F a z)
    (hcounter : loopCounter F' = loopCounter x.frames) :
    Machine.state { z.restoreTo (x.savepoint (some t)) with frames := F' } = x.state := by
  have hw := h.windows
  have hs := h.scopes
  simp only [Machine.state, St.mk.injEq]
  exact ⟨rfl, rfl, hw, rfl, hs, hcounter⟩

/-! ## Optionals -/

theorem optional_sim {inner : Kont} {P : Parser} (hg : Good p m) (hk : k.recovers = false)
    (hctl : m.control = .run (.beginOptional (.onFail (some k) none true) inner))
    (hin : ∀ x, x.control = .run inner → Good p x → Sim p L 0 x (.endOptional k) (P x.state)) :
    Sim p L 0 m k ((P m.state).orElse (.ok m.state)) := by
  obtain ⟨x, hx⟩ : ∃ x, x = (m.pushFrame
    (.savepoint (m.savepoint (some (.onFail (some k) none true))))).go inner := ⟨_, rfl⟩
  have hstep : m.step p = x := by
    rw [hx]
    simp only [Machine.step, hctl, Machine.exec]
  have hgx : Good p x := hstep ▸ hg.step
  have hstate : x.state = m.state := by rw [hx]; rfl
  have hsv : x.savepoint (some (.onFail (some k) none true)) =
      m.savepoint (some (.onFail (some k) none true)) := by rw [hx]; rfl
  have hframes : x.frames =
      .savepoint (x.savepoint (some (.onFail (some k) none true))) :: m.frames := by
    rw [hsv, hx]
    rfl
  have hlen : x.frames.length = m.frames.length + 1 := by rw [hframes]; rfl
  have hfirst : Within p m.frames.length m x := by
    refine .turn (Nat.le_refl _) ?_
    rw [hstep]
    exact .refl (by omega)
  have hscopes : scopesOf x.builder = scopesOf m.builder := congrArg St.scopes hstate
  have hwin : x.windows = m.windows := congrArg St.windows hstate
  have hsim := hin x (by rw [hx]; rfl) hgx
  rw [hstate] at hsim
  generalize P m.state = o at hsim
  cases hsim with
  | timeout h => exact .timeout (hfirst.lasts (h.mono (by omega)))
  | missing hw hctl => exact .missing (hfirst.trans (hw.mono (by omega))) hctl
  | @ok m' hw hctl' hl =>
    have hframes' := hl.frames.trans hframes
    have hstep' : m'.step p = { m' with frames := m.frames }.go k := by
      simp only [Machine.step, hctl', Machine.exec, Machine.popSavepoint, hframes']
    have hlen' : m'.frames.length = m.frames.length + 1 := by rw [hframes']; rfl
    have hlast : Within p m.frames.length m' (m'.step p) := by
      refine .one (by omega) ?_
      rw [hstep']
      exact Nat.le_refl _
    obtain ⟨pre, hpre, hwin'⟩ := hl.windows
    refine .ok_at (hfirst.trans ((hw.mono (by omega)).trans hlast)) (by rw [hstep']; rfl)
      ⟨by rw [hstep']; rfl, ⟨pre, hpre, ?_⟩, ?_⟩ ?_
    · rw [hstep', ← hwin]
      exact hwin'
    · rw [hstep', ← hscopes]
      exact hl.scopes
    · rw [hstep']
      have hcounter : loopCounter m.frames = loopCounter m'.frames := by rw [hframes']; rfl
      simp only [Machine.state, Machine.go, Machine.windows, hcounter]
  | @fail w y text hw hlike hb =>
    obtain ⟨z, hz⟩ := hb.handled hgx.sound.held hframes rfl hlike
    have hexec : z.exec p (.onFail (some k) none true) =
        { z.restoreTo (x.savepoint (some (.onFail (some k) none true))) with
          frames := m.frames }.go k := by
      simp only [Machine.exec, Machine.onFail, hz.frames, splitSavepoint, if_true]
    have hlike' := hz.like
    rw [hexec] at hlike'
    obtain ⟨s, hs, hagree⟩ := hlike'.reaches hk
    have hsframes : s.frames = m.frames := hagree.frames
    have hsstate : s.state = m.state := by
      rw [hagree.state, ← hstate]
      exact hz.state (by rw [hframes]; rfl)
    have hwithin : Within p m.frames.length m s := by
      refine hfirst.trans ((hw.mono (by omega)).trans (.turn ?_ (hs.within (by rw [hsframes]))))
      exact (show m.frames.length ≤ x.frames.length by omega).trans hw.right
    exact .ok_at hwithin hagree.control
      (.of_eq hsframes (congrArg St.windows hsstate) (congrArg St.scopes hsstate)) hsstate

end

end Bbq.Cek
