import Bbq.Cek.Failure
import Bbq.Cek.Parse

/-!
# Runs that follow the meaning

`Sim p L d m k o`: the run from `m` comes to what `o` says. If `o` is a state, it reaches `k` in that state
with the frames it had, and at least `d` windows more; if it is a failure, it comes to a state
that settles like a failure over the same frames; if it is a timeout, it lasts `L` turns. Until then no
frame of `m` is popped (`Within`, `Lasts`).

* `Sim.bind`: one construct after another.
* `Sim.scoped`, `Sim.popped`: a capture scope, and a window, around a construct.
* `After`: what is left to show once a turn is known.
-/

namespace Bbq.Cek

open Zcow (Builder)

/-! ## Runs within frames -/

/-- What the meaning of a grammar sees of a machine. -/
def Machine.state (m : Machine) : St :=
  { pos := m.pos, env := m.env, windows := m.windows, littleEndian := m.littleEndian
    scopes := scopesOf m.builder, counter := loopCounter m.frames }

section

variable (p : Program)

/-- A sound machine, with a clean run ahead. -/
structure Good (m : Machine) : Prop where
  sound : Sound False p m
  clean : ∀ i, (m.run p i).Clean p

/-- A run from one machine to the other that always has `n` frames. -/
inductive Within (n : Nat) : Machine → Machine → Prop
  | refl {m} : n ≤ m.frames.length → Within n m m
  | turn {m m'} : n ≤ m.frames.length → Within n (m.step p) m' → Within n m m'

/-- The run goes on for another `L` turns, all with `n` frames. -/
def Lasts (n : Nat) : Nat → Machine → Prop
  | 0, m => n ≤ m.frames.length ∧ ∃ k, m.control = .run k
  | L + 1, m => n ≤ m.frames.length ∧ Lasts n L (m.step p)

/-- The two settle in states that agree. -/
def SettlesLike (m m' : Machine) : Prop := ∃ s d, Settles p m s ∧ Settles p m' d ∧ Agrees s d

end

section

variable {p : Program} {m m' m'' : Machine} {n n' L : Nat}

theorem Good.step (h : Good p m) : Good p (m.step p) :=
  ⟨h.sound.step (h.clean 0) False.elim False.elim, fun i => h.clean (i + 1)⟩

theorem Good.within (h : Good p m) (hw : Within p n m m') : Good p m' := by
  induction hw with
  | refl => exact h
  | turn _ _ ih => exact ih h.step

theorem Good.settles (h : Good p m) (hs : Settles p m m') : Good p m' := by
  induction hs with
  | here => exact h
  | turn _ _ ih => exact ih h.step

theorem Within.trans (h : Within p n m m') (h' : Within p n m' m'') : Within p n m m'' := by
  induction h with
  | refl => exact h'
  | turn hn _ ih => exact .turn hn (ih h')

theorem Within.mono (h : Within p n m m') (hn : n' ≤ n) : Within p n' m m' := by
  induction h with
  | refl hm => exact .refl (hn.trans hm)
  | turn hm _ ih => exact .turn (hn.trans hm) ih

theorem Within.one (h : n ≤ m.frames.length) (h' : n ≤ (m.step p).frames.length) :
    Within p n m (m.step p) :=
  .turn h (.refl h')

theorem Within.left (h : Within p n m m') : n ≤ m.frames.length := by
  cases h with
  | refl h => exact h
  | turn h => exact h

theorem Within.right (h : Within p n m m') : n ≤ m'.frames.length := by
  induction h with
  | refl h => exact h
  | turn _ _ ih => exact ih

/-- What has a turn to take had one before. -/
theorem Machine.running_of_step (h : (m.step p).control = .run k) : ∃ k, m.control = .run k := by
  rcases hm : m.control with k' | _ | _
  · exact ⟨k', rfl⟩
  · simp only [Machine.step, hm] at h
    cases h
  · simp only [Machine.step, hm] at h
    cases h

theorem Within.running (h : Within p n m m') (hctl : m'.control = .run k) : ∃ k, m.control = .run k := by
  induction h with
  | refl => exact ⟨_, hctl⟩
  | turn _ _ ih =>
    obtain ⟨k', hk'⟩ := ih hctl
    exact Machine.running_of_step hk'

theorem Lasts.left (h : Lasts p n L m) : n ≤ m.frames.length := by
  cases L with
  | zero => exact h.1
  | succ => exact h.1

theorem Lasts.shorter (h : Lasts p n (L + 1) m) : Lasts p n L m := by
  induction L generalizing m with
  | zero =>
    obtain ⟨hn, -, k, hctl⟩ := h
    exact ⟨hn, Machine.running_of_step hctl⟩
  | succ L ih => exact ⟨h.1, ih h.2⟩

/-- A run that lasts is not over. -/
theorem Lasts.running (h : Lasts p n L m) : ∃ k, (m.run p L).control = .run k := by
  induction L generalizing m with
  | zero => exact h.2
  | succ L ih => exact ih h.2

theorem Lasts.of_le {L' : Nat} (h : Lasts p n L' m) (hL : L ≤ L') : Lasts p n L m := by
  induction hL with
  | refl => exact h
  | step _ ih => exact ih h.shorter

theorem Lasts.mono (h : Lasts p n L m) (hn : n' ≤ n) : Lasts p n' L m := by
  induction L generalizing m with
  | zero => exact ⟨hn.trans h.1, h.2⟩
  | succ L ih => exact ⟨hn.trans h.1, ih h.2⟩

theorem Within.lasts (hw : Within p n m m') (h : Lasts p n L m') : Lasts p n L m := by
  induction hw with
  | refl => exact h
  | turn hn _ ih =>
    have : Lasts p n (L + 1) _ := ⟨hn, ih h⟩
    exact this.shorter

/-- A turn taken within the frames makes a run last longer. -/
theorem Within.lasts_succ (hw : Within p n (m.step p) m') (hm : n ≤ m.frames.length)
    (h : Lasts p n L m') : Lasts p n (L + 1) m :=
  ⟨hm, hw.lasts h⟩

theorem Good.settlesLike (h : Good p m) : SettlesLike p m m := by
  obtain ⟨s, hs⟩ := h.sound.settles
  exact ⟨s, s, hs, hs, rfl, rfl, rfl, rfl, rfl, rfl, rfl, rfl⟩

theorem Machine.view_state (hd : m.intervalDepth ≤ m.intervals.length) : m.state.view p = m.view p := by
  simp [St.view, Machine.view, St.effectiveEnd, Machine.state, Machine.effectiveEnd_eq hd]

theorem Machine.state_effectiveEnd (hd : m.intervalDepth ≤ m.intervals.length) :
    m.state.effectiveEnd p = m.effectiveEnd p := (Machine.effectiveEnd_eq hd p).symm

theorem Machine.state_effectiveStart (hd : m.intervalDepth ≤ m.intervals.length) :
    m.state.effectiveStart p = m.effectiveStart := (Machine.effectiveStart_eq hd p.bytes.length).symm

theorem Good.depth (h : Good p m) : m.intervalDepth ≤ m.intervals.length := h.sound.held.depth

end

/-! ## Later states, and failures behind them -/

/-- The same frames, at least `d` more windows, and more captures in the innermost scope. -/
structure Later (d : Nat) (m m' : Machine) : Prop where
  frames : m'.frames = m.frames
  windows : ∃ pre, d ≤ pre.length ∧ m'.windows = pre ++ m.windows
  scopes : Grown (scopesOf m.builder) (scopesOf m'.builder)

/-- A failure at `y` is one over the frames of `m`, and a savepoint of these brings back what it would
from `m`. -/
structure Behind (p : Program) (m y : Machine) : Prop where
  frames : unwind y.frames = unwind m.frames
  held : Held False p y
  windows : ∃ pre, y.windows = pre ++ m.windows
  scopes : Extends (scopesOf m.builder) (scopesOf y.builder)

section

variable {p : Program} {m m' m'' y : Machine} {d d' : Nat}

theorem grown_refl (b : Builder) : Grown (scopesOf b) (scopesOf b) := by
  rcases hS : scopesOf b with _ | ⟨o, R⟩
  · exact absurd hS (scopesOf_ne_nil b)
  · exact .refl o R

/-- A later state with the windows and scopes as they were. -/
theorem Later.of_eq (hf : m'.frames = m.frames) (hw : m'.windows = m.windows)
    (hs : scopesOf m'.builder = scopesOf m.builder) : Later 0 m m' :=
  ⟨hf, ⟨[], Nat.le_refl 0, hw⟩, hs ▸ grown_refl m.builder⟩

theorem Later.trans (h : Later d m m') (h' : Later d' m' m'') : Later (d + d') m m'' := by
  obtain ⟨pre, hpre, hw⟩ := h.windows
  obtain ⟨pre', hpre', hw'⟩ := h'.windows
  refine ⟨h'.frames.trans h.frames, ⟨pre' ++ pre, ?_, ?_⟩, h.scopes.trans h'.scopes⟩
  · rw [List.length_append]
    omega
  · rw [hw', hw, List.append_assoc]

theorem Later.weaken (h : Later d m m') (hd : d' ≤ d) : Later d' m m' := by
  obtain ⟨pre, hpre, hw⟩ := h.windows
  exact ⟨h.frames, ⟨pre, hd.trans hpre, hw⟩, h.scopes⟩

theorem Behind.of_eq (hf : y.frames = m.frames) (hh : Held False p y) (hw : y.windows = m.windows)
    (hs : scopesOf y.builder = scopesOf m.builder) : Behind p m y :=
  ⟨by rw [hf], hh, ⟨[], hw⟩, [], _, rfl, hs ▸ grown_refl m.builder⟩

theorem Extends.of_grown {S₀ S S' : List OpenScope} (hg : Grown S₀ S) (h : Extends S S') :
    Extends S₀ S' := by
  obtain ⟨pre, S₁, rfl, hg'⟩ := h
  exact ⟨pre, S₁, rfl, hg.trans hg'⟩

theorem Later.behind (h : Later d m m') (hb : Behind p m' y) : Behind p m y := by
  obtain ⟨pre, -, hw⟩ := h.windows
  obtain ⟨pre', hw'⟩ := hb.windows
  exact ⟨by rw [hb.frames, h.frames], hb.held, ⟨pre' ++ pre, by rw [hw', hw, List.append_assoc]⟩,
    hb.scopes.of_grown h.scopes⟩

end

/-! ## Simulation -/

section

variable (p : Program)

inductive Sim (L d : Nat) (m : Machine) (k : Kont) : Outcome St → Prop
  | ok {m'} : Within p m.frames.length m m' → m'.control = .run k → Later d m m' →
      Sim L d m k (.ok m'.state)
  | fail {w y text} : Within p m.frames.length m w → SettlesLike p (w.step p) (y.fail text) →
      Behind p m y → Sim L d m k .fail
  | timeout : Lasts p m.frames.length L m → Sim L d m k .timeout
  | missing {w} : Within p m.frames.length m w → (w.step p).control = .failed →
      Sim L d m k .missing

/-- What is left to show of `m`, whose next state is `x`. -/
def After (L d : Nat) (m : Machine) (k : Kont) (x : Machine) (o : Outcome St) : Prop :=
  m.step p = x → Sim p L d m k o

theorem After.of_step {p : Program} {L d : Nat} {m x : Machine} {k : Kont} {o : Outcome St}
    (hstep : m.step p = x) (h : After p L d m k x o) : Sim p L d m k o := h hstep

end

section

variable {p : Program} {L d d' : Nat} {m x y : Machine} {k k' : Kont} {o : Outcome St}

theorem Sim.here (hctl : m.control = .run k) : Sim p L 0 m k (.ok m.state) :=
  .ok (.refl (Nat.le_refl _)) hctl (.of_eq rfl rfl rfl)

theorem Sim.weaken (h : Sim p L d m k o) (hd : d' ≤ d) : Sim p L d' m k o := by
  cases h with
  | ok hw hctl hl => exact .ok hw hctl (hl.weaken hd)
  | fail hw hs hb => exact .fail hw hs hb
  | timeout h => exact .timeout h
  | missing hw hctl => exact .missing hw hctl

theorem Sim.of_le {L' : Nat} (h : Sim p L d m k o) (hL : L' ≤ L) : Sim p L' d m k o := by
  cases h with
  | ok hw hctl hl => exact .ok hw hctl hl
  | fail hw hs hb => exact .fail hw hs hb
  | timeout h => exact .timeout (h.of_le hL)
  | missing hw hctl => exact .missing hw hctl

theorem Sim.ok_at {m' : Machine} {s : St} (hw : Within p m.frames.length m m')
    (hctl : m'.control = .run k) (hl : Later d m m') (hs : m'.state = s) : Sim p L d m k (.ok s) :=
  hs ▸ .ok hw hctl hl

/-- What holds from a later state. -/
theorem Sim.after (hw : Within p m.frames.length m x) (hl : Later d m x) (h : Sim p L d' x k o) :
    Sim p L (d + d') m k o := by
  have hn : m.frames.length = x.frames.length := by rw [hl.frames]
  cases h with
  | ok hw' hctl hl' => exact .ok (hw.trans (hn ▸ hw')) hctl (hl.trans hl')
  | fail hw' hs hb => exact .fail (hw.trans (hn ▸ hw')) hs (hl.behind hb)
  | timeout h => exact .timeout (hw.lasts (hn ▸ h))
  | missing hw' hctl => exact .missing (hw.trans (hn ▸ hw')) hctl

/-- **One construct after another.** -/
theorem Sim.bind {f : St → Outcome St} (h : Sim p L d m k o) (hg : Good p m)
    (hf : ∀ m', m'.control = .run k → Later d m m' → Good p m' → Sim p L d' m' k' (f m'.state)) :
    Sim p L (d + d') m k' (o >>= f) := by
  cases h with
  | ok hw hctl hl => exact .after hw hl (hf _ hctl hl (hg.within hw))
  | fail hw hs hb => exact .fail hw hs hb
  | timeout h => exact .timeout h
  | missing hw hctl => exact .missing hw hctl

/-- A machine that differs from `m` in what no meaning sees. -/
structure Twin (p : Program) (m b : Machine) : Prop where
  frames : b.frames = m.frames
  state : b.state = m.state
  held : Held False p b

theorem Twin.refl (hg : Good p m) : Twin p m m := ⟨rfl, rfl, hg.sound.held⟩

/-- Going on from a twin. -/
theorem Twin.later {b : Machine} (hb : Twin p m b) : Later 0 m b :=
  .of_eq hb.frames (congrArg St.windows hb.state) (congrArg St.scopes hb.state)

theorem Sim.fail_at {w : Machine} {text : String} (hw : Within p m.frames.length m w)
    (hg : Good p w) (hstep : w.step p = y.fail text) (hb : Behind p m y) : Sim p L d m k .fail := by
  have hlike : SettlesLike p (w.step p) (y.fail text) := by
    rw [← hstep]
    exact hg.step.settlesLike
  exact .fail hw hlike hb

namespace After

theorem go (hg : Good p m) (hl : Later d m x) (h : Good p x → Sim p L d' x k o) :
    After p L (d + d') m k x o := by
  rintro rfl
  have hn : m.frames.length ≤ (m.step p).frames.length := by rw [hl.frames]
  exact .after (.one (Nat.le_refl _) hn) hl (h hg.step)

/-- The turn reaches `k`. -/
theorem reach (hg : Good p m) (hl : Later d m x) (hctl : x.control = .run k) :
    After p L d m k x (.ok x.state) :=
  go hg hl fun _ => .here hctl

theorem reach_eq {s : St} (hg : Good p m) (hl : Later d m x) (hctl : x.control = .run k)
    (hs : x.state = s) : After p L d m k x (.ok s) :=
  hs ▸ reach hg hl hctl

theorem fail {text : String} (hg : Good p m) (hb : Behind p m y) :
    After p L d m k (y.fail text) .fail := fun hstep =>
  .fail_at (.refl (Nat.le_refl _)) hg hstep hb

/-- A failure with something else in `ac`. -/
theorem fail_twin {b : Machine} {text : String} (hg : Good p m) (hb : Twin p m b) (r : Option Value) :
    After p L d m k ({ b with result := r }.fail text) .fail :=
  fail hg (.of_eq hb.frames (hb.held.of_eq rfl rfl rfl) (congrArg St.windows hb.state)
    (congrArg St.scopes hb.state))

theorem fail_result {text : String} (hg : Good p m) (r : Option Value) :
    After p L d m k ({ m with result := r }.fail text) .fail :=
  fail_twin hg (.refl hg) r

theorem consume {b : Machine} {e : Expr} {f : Machine → Option Value → Machine}
    {g : Option Value → Outcome St} (hg : Good p m) (hb : Twin p m b)
    (hf : ∀ v, eval (b.view p) e = .ok v → After p L d m k (f { b with result := v } v) (g v)) :
    After p L d m k (b.consume p e f) (m.state.value p e >>= g) := by
  unfold Machine.consume St.value
  rw [← hb.state, Machine.view_state hb.held.depth]
  rcases hv : eval (b.view p) e with text | v
  · exact fail_twin hg hb b.result
  · exact hf v hv

theorem consumeInt {b : Machine} {e : Expr} {text : String} {f : Machine → Int64 → Machine}
    {g : Int64 → Outcome St} (hg : Good p m) (hb : Twin p m b)
    (hf : ∀ i, After p L d m k (f { b with result := some (.int i) } i) (g i)) :
    After p L d m k (b.consumeInt p e text f) (m.state.int p e >>= g) := by
  unfold St.int
  rw [Outcome.bind_assoc]
  refine consume hg hb fun v _ => ?_
  rcases v with _ | (i | _ | _ | _ | _)
  · exact fail_twin hg hb _
  · exact hf i
  · exact fail_twin hg hb _
  · exact fail_twin hg hb _
  · exact fail_twin hg hb _
  · exact fail_twin hg hb _

theorem consumeBool {b : Machine} {e : Expr} {text : String} {f : Machine → Bool → Machine}
    {g : Bool → Outcome St} (hg : Good p m) (hb : Twin p m b)
    (hf : ∀ v c, eval (b.view p) e = .ok v → coerceToBool v = some c →
      After p L d m k (f { b with result := v } c) (g c)) :
    After p L d m k (b.consumeBool p e text f) (m.state.test p e >>= g) := by
  unfold St.test
  rw [Outcome.bind_assoc]
  refine consume hg hb fun v hv => ?_
  rcases hc : coerceToBool v with _ | c
  · exact fail_twin hg hb v
  · exact hf v c hv hc

end After

/-! ## Leaves -/

theorem Machine.placeValue_eq {who : String} {store : Leaf → Machine} {c : Capture}
    (hres : m.result = some (.capture c)) : m.placeValue who store = store c.leaf := by
  simp only [Machine.placeValue, hres]

theorem bindName_sim {name : Option String} {c : Capture} (hg : Good p m)
    (hctl : m.control = .run (.storeEnv name k)) (hres : m.result = some (.capture c)) :
    Sim p L 0 m k (.ok (m.state.bindName name c.leaf)) := by
  have hstep : m.step p = m.storeEnv name k := by simp only [Machine.step, hctl, Machine.exec]
  unfold Machine.storeEnv at hstep
  rw [Machine.placeValue_eq hres] at hstep
  exact After.of_step hstep (.reach hg (.of_eq rfl rfl rfl) rfl)

theorem capture_sim {name : Option String} {c : Capture}
    (hctl : m.control = .run (.capture name k)) (hres : m.result = some (.capture c)) :
    ∃ x, m.step p = x ∧ x.control = .run k ∧ x.result = some (.capture c) ∧ Later 0 m x ∧
      x.state = m.state.capture name c.leaf := by
  have hstep : m.step p = m.capture name k := by simp only [Machine.step, hctl, Machine.exec]
  unfold Machine.capture at hstep
  rw [Machine.placeValue_eq hres] at hstep
  refine ⟨_, hstep, rfl, hres, ⟨rfl, ⟨[], Nat.le_refl 0, rfl⟩, ?_⟩, ?_⟩
  · show Grown _ (scopesOf (Builder.addField _ _ _ _ _ _ _ _))
    rw [scopesOf_addField]
    exact .attachCapture _ (scopesOf_ne_nil _)
  · show ({ m.state with scopes := scopesOf (Builder.addField _ _ _ _ _ _ _ _) } : St) = _
    rw [scopesOf_addField]
    rfl

/-- The konts that store a carrier. -/
theorem Sim.store {name : String} {leaf : Leaf} {kids : List Capture} (hg : Good p m)
    (hctl : m.control = .run (fieldDest name k)) (hres : m.result = some (.capture (.mk leaf kids))) :
    Sim p L 0 m k (.ok (m.state.dest name leaf)) := by
  unfold fieldDest at hctl
  unfold St.dest
  by_cases hname : name = "_"
  · simp only [hname, if_true] at hctl ⊢
    exact bindName_sim hg hctl hres
  · simp only [hname, if_false] at hctl ⊢
    obtain ⟨x, hstep, hctl', hres', hlater, hstate⟩ := capture_sim (p := p) hctl hres
    have hrest := After.go (L := L) hg hlater fun hg' => bindName_sim hg' hctl' hres'
    rw [hstate] at hrest
    exact hrest hstep

namespace After

/-- A carrier, and the konts that store it. -/
theorem produce {name : String} {leaf : Leaf} (hg : Good p m) (hx : Later 0 m x)
    (hctl : x.control = .run (fieldDest name k)) (hres : x.result = some (.capture (.mk leaf []))) :
    After p L 0 m k x (.ok (x.state.dest name leaf)) :=
  go hg hx fun hg' => .store hg' hctl hres

/-- A carrier that ends at the cursor. -/
theorem take {name : String} {leaf : Leaf} {stop : Nat} (hg : Good p m) (hstop : leaf.endOffset = stop) :
    After p L 0 m k ({ m with pos := stop }.produce leaf (fieldDest name k))
      (.ok (m.state.take name leaf)) := by
  subst hstop
  exact produce hg (.of_eq rfl rfl rfl) rfl rfl

end After

section

variable {name : String}

theorem primitive_sim {prim : PrimitiveInfo} (hg : Good p m)
    (hctl : m.control = .run (.matchPrimitive prim (fieldDest name k))) :
    Sim p L 0 m k (m.state.primitiveLeaf p prim >>= fun l => .ok (m.state.take name l)) := by
  have hstep : m.step p = m.matchPrimitive p prim (fieldDest name k) := by
    simp only [Machine.step, hctl, Machine.exec]
  refine After.of_step hstep ?_
  have hend : m.state.effectiveEnd p = m.effectiveEnd p := Machine.state_effectiveEnd hg.depth
  have hrest : m.state.rest p = m.rest p := by simp only [St.rest, hend, Machine.rest]; rfl
  have hpos : m.state.pos = m.pos := rfl
  unfold Machine.matchPrimitive St.primitiveLeaf
  simp only [hrest, hend, hpos]
  rcases prim.encoding with _ | _ | _
  · simp only
    split
    · exact .fail_result hg m.result
    · exact .take hg rfl
  · simp only
    rcases decodeUleb128 _ (m.rest p) with _ | ⟨u, consumed⟩
    · exact .fail_result hg m.result
    · exact .take hg rfl
  · simp only
    rcases decodeSleb128 _ (m.rest p) with _ | ⟨v, consumed⟩
    · exact .fail_result hg m.result
    · exact .take hg rfl

theorem bytes_sim {length : Expr} {isString : Bool} (hg : Good p m)
    (hctl : m.control = .run (.matchBytes length isString (fieldDest name k))) :
    Sim p L 0 m k (m.state.bytesLeaf p length isString >>= fun l => .ok (m.state.take name l)) := by
  have hstep : m.step p = m.matchBytes p length isString (fieldDest name k) := by
    simp only [Machine.step, hctl, Machine.exec]
  refine After.of_step hstep ?_
  unfold St.bytesLeaf
  rw [Outcome.bind_assoc]
  refine .consumeInt hg (.refl hg) fun len => ?_
  have hend : Machine.effectiveEnd p { m with result := some (.int len) } = m.state.effectiveEnd p :=
    (Machine.state_effectiveEnd hg.depth).symm
  have hpos : m.state.pos = m.pos := rfl
  simp only [hend, hpos]
  split
  · exact .fail_result hg _
  · exact .produce hg (.of_eq rfl rfl rfl) rfl rfl

theorem compute_sim {e : Expr} (hg : Good p m)
    (hctl : m.control = .run (.bindCompute e (fieldDest name k))) :
    Sim p L 0 m k (m.state.computeLeaf p e >>= fun l => .ok (m.state.take name l)) := by
  have hstep : m.step p = m.bindCompute p e (fieldDest name k) := by
    simp only [Machine.step, hctl, Machine.exec]
  refine After.of_step hstep ?_
  unfold St.computeLeaf
  rw [Outcome.bind_assoc]
  refine .consume hg (.refl hg) fun v _ => ?_
  rcases v with _ | v
  · exact .fail_result hg _
  · exact .produce hg (.of_eq rfl rfl rfl) rfl rfl

theorem external_sim {funcName : String} (hg : Good p m)
    (hctl : m.control = .run (.externalCall funcName (fieldDest name k))) :
    Sim p L 0 m k (m.state.externalLeaf p funcName >>= fun l => .ok (m.state.take name l)) := by
  have hstep : m.step p = m.externalCall p funcName (fieldDest name k) := by
    simp only [Machine.step, hctl, Machine.exec]
  refine After.of_step hstep ?_
  have hend : m.state.effectiveEnd p = m.effectiveEnd p := Machine.state_effectiveEnd hg.depth
  have hpos : m.state.pos = m.pos := rfl
  unfold Machine.externalCall St.externalLeaf
  simp only [hend, hpos]
  rcases p.externs with _ | table
  · exact .fail_result hg m.result
  · rcases htab : table funcName with _ | fn
    · simp only [htab]
      exact .fail_result hg m.result
    · simp only [htab]
      rcases fn (p.bytes.drop m.pos) (sizeSub (m.effectiveEnd p) m.pos) with _ | consumed
      · exact .fail_result hg m.result
      · exact .take hg rfl

theorem bits_sim {c : PrimitiveInfo} {w o : Nat} {s : Bool} (hg : Good p m)
    (hctl : m.control = .run (.extractBits c w o s (fieldDest name k))) :
    Sim p L 0 m k (m.state.bitsLeaf p c w o s >>= fun l => .ok (m.state.dest name l)) := by
  have hstep : m.step p = m.extractBits p c w o s (fieldDest name k) := by
    simp only [Machine.step, hctl, Machine.exec]
  refine After.of_step hstep ?_
  have hend : m.state.effectiveEnd p = m.effectiveEnd p := Machine.state_effectiveEnd hg.depth
  have hpos : m.state.pos = m.pos := rfl
  have hle : m.state.littleEndian = m.littleEndian := rfl
  have hread : (m.state.cursor p).readPrimitive p c = m.readPrimitive p c := rfl
  unfold Machine.extractBits St.bitsLeaf
  simp only [hend, hpos, hle, hread]
  split
  · exact .fail_result hg m.result
  · generalize (c.endian == .big || c.endian == .default && !m.littleEndian) = msb
    have hscopes := scopesOf_scopeIsBitsRun m.builder msb
    have hstate : ({ m with builder := m.builder.scopeIsBitsRun msb } : Machine).state = m.state := by
      show ({ m.state with scopes := scopesOf (m.builder.scopeIsBitsRun msb) } : St) = _
      rw [hscopes]
      rfl
    simp only [Outcome.ok_bind]
    rw [← hstate]
    exact .produce hg (.of_eq rfl rfl hscopes) rfl rfl

end

/-! ## Decisions -/

theorem SettlesLike.congr {x' y' : Machine} (h : SettlesLike p x y) (hx : Agrees x x')
    (hy : Agrees y y') : SettlesLike p x' y' := by
  obtain ⟨s, d, hs, hd, hsd⟩ := h
  obtain ⟨s', hs', hss'⟩ := hx.settle hs
  obtain ⟨d', hd', hdd'⟩ := hy.settle hd
  exact ⟨s', d', hs', hd', (hss'.symm.trans hsd).trans hdd'⟩

/-- A `where`, whose failure edge is clean, and so settles like a failure. -/
theorem check_sim {constraint : Option Expr} {r : Rho} (hg : Good p m)
    (hr : ∀ t, findBacktrackTarget r = some t → t.recovers = true)
    (hctl : m.control = .run (wrapWhere constraint r k)) :
    Sim p L 0 m k (St.check p constraint m.state) := by
  rcases constraint with _ | e
  · exact .here hctl
  · have hrec : ((findBacktrackTarget r).getD .abortRule).recovers = true := by
      rcases ht : findBacktrackTarget r with _ | t
      · rfl
      · exact hr t ht
    unfold wrapWhere at hctl
    have hstep : m.step p = m.evalConstraint p e ((findBacktrackTarget r).getD .abortRule) k := by
      simp only [Machine.step, hctl, Machine.exec]
    refine After.of_step hstep (.consumeBool hg (.refl hg) fun v b hv hb => ?_)
    rcases b with _ | _
    · intro hstep
      have hclean := hg.clean 0 e _ k hctl ⟨v, hv, hb⟩
      have hlike : SettlesLike p (m.go ((findBacktrackTarget r).getD .abortRule)) (m.fail "") :=
        hg.sound.settle_alike hctl hrec hclean ""
      have hfail : SettlesLike p (m.step p) (m.fail "") := by
        rw [hstep]
        exact hlike.congr ⟨rfl, rfl, rfl, rfl, rfl, rfl, rfl, rfl⟩ ⟨rfl, rfl, rfl, rfl, rfl, rfl, rfl, rfl⟩
      exact .fail (.refl (Nat.le_refl _)) hfail (.of_eq rfl hg.sound.held rfl rfl)
    · exact .reach hg (.of_eq rfl rfl rfl) rfl

theorem setEndian_sim {e : Expr} (hg : Good p m) (hctl : m.control = .run (.setEndian e k)) :
    Sim p L 0 m k (do return { m.state with littleEndian := ← m.state.test p e }) := by
  have hstep : m.step p = m.setEndian p e k := by simp only [Machine.step, hctl, Machine.exec]
  exact After.of_step hstep (.consumeBool hg (.refl hg) fun _ _ _ _ => .reach hg (.of_eq rfl rfl rfl) rfl)

/-! ## Windows -/

theorem seek_sim {e : Expr} (hg : Good p m) (hctl : m.control = .run (.seek e k)) :
    Sim p L 0 m k (St.seek p e m.state) := by
  have hstep : m.step p = m.seek p e k := by simp only [Machine.step, hctl, Machine.exec]
  refine After.of_step hstep (.consumeInt hg (.refl hg) fun target => ?_)
  split
  · exact .fail_result hg _
  · exact .reach hg (.of_eq rfl rfl rfl) rfl

theorem Machine.markRest_twin {relative : Bool} {e : Expr} (hg : Good p m) :
    Twin p m (m.markRest relative e) := by
  unfold Machine.markRest
  split
  · have hscopes := scopesOf_scopeDeterminesRest m.builder
    refine ⟨rfl, ?_, hg.sound.held.of_eq rfl rfl rfl⟩
    show ({ m.state with scopes := scopesOf _ } : St) = _
    rw [hscopes]
    rfl
  · exact .refl hg

theorem pushWindow_sim {relative : Bool} {e : Expr} (hg : Good p m)
    (hctl : m.control = .run (.pushInterval relative e k)) :
    Sim p L 1 m k (St.pushWindow p relative e m.state) := by
  have hstep : m.step p = m.pushInterval p relative e k := by
    simp only [Machine.step, hctl, Machine.exec]
  have htwin := @Machine.markRest_twin p m relative e hg
  refine After.of_step hstep (.consumeInt hg htwin fun v => ?_)
  generalize m.markRest relative e = b at htwin
  have hpos : m.state.pos = b.pos := congrArg St.pos htwin.state.symm
  have hstart : m.state.effectiveStart p = b.effectiveStart := by
    rw [← htwin.state, Machine.state_effectiveStart htwin.held.depth]
  have hend : m.state.effectiveEnd p = b.effectiveEnd p := by
    rw [← htwin.state, Machine.state_effectiveEnd htwin.held.depth]
  simp only [Machine.pushIntervalApply, hpos, hstart, hend]
  generalize (if relative = true then sizeAdd b.pos v.toInt.toNat else v.toInt.toNat) = stop
  have hstart' : Machine.effectiveStart { b with result := some (.int v) } = b.effectiveStart := rfl
  have hend' : Machine.effectiveEnd p { b with result := some (.int v) } = b.effectiveEnd p := rfl
  simp only [hstart', hend']
  split
  · exact .fail_twin hg htwin _
  · have hwin : (Machine.openWindow { b with result := some (.int v) } b.pos stop).windows =
        (b.pos, stop) :: b.windows := (windows_push htwin.held.depth (b.pos, stop)).1
    have hw : b.windows = m.windows := congrArg St.windows htwin.state
    refine .reach_eq hg ⟨htwin.frames, ⟨[(b.pos, stop)], Nat.le_refl 1, hw ▸ hwin⟩,
      htwin.later.scopes⟩ rfl ?_
    have hstate : ((Machine.openWindow { b with result := some (.int v) } b.pos stop).go k).state =
        { b.state with windows := (b.pos, stop) :: b.windows } :=
      congrArg (fun w => ({ b.state with windows := w } : St)) hwin
    rw [hstate, ← htwin.state]
    rfl

/-- A window closed after at least one was opened. -/
theorem Sim.popped {checked : Bool} (h : Sim p L (d + 1) m (.popInterval checked k) o)
    (hg : Good p m) : Sim p L d m k (o >>= St.popWindow p checked) := by
  cases h with
  | fail hw hs hb => exact .fail hw hs hb
  | timeout h => exact .timeout h
  | missing hw hctl => exact .missing hw hctl
  | @ok m' hw hctl hl =>
    have hg' := hg.within hw
    obtain ⟨pre, hpre, hwin⟩ := hl.windows
    rcases pre with _ | ⟨w, pre⟩
    · simp at hpre
    obtain ⟨depth, hdepth⟩ : ∃ depth, m'.intervalDepth = depth + 1 := by
      rcases hd : m'.intervalDepth with _ | depth
      · rw [Machine.windows_zero hd] at hwin
        cases hwin
      · exact ⟨depth, rfl⟩
    have hpop : Machine.windows { m' with intervalDepth := m'.intervalDepth - 1 } =
        pre ++ m.windows := by
      obtain ⟨w', -, hw'⟩ := Machine.windows_succ hdepth hg'.depth
      rw [hw'] at hwin
      have htail : (m'.intervals.take depth).reverse = pre ++ m.windows := by
        simpa using (List.cons.inj hwin).2
      rw [← htail]
      simp [Machine.windows, hdepth]
    have hstep : m'.step p = m'.popInterval p checked k := by
      simp only [Machine.step, hctl, Machine.exec]
    have hend : m'.state.effectiveEnd p = m'.effectiveEnd p := Machine.state_effectiveEnd hg'.depth
    have hposw : m'.state.windows = w :: (pre ++ m.windows) := hwin
    have hpos : m'.state.pos = m'.pos := rfl
    have hdpos : m'.intervalDepth > 0 := by omega
    simp only [Outcome.ok_bind, St.popWindow, hposw, hend, hpos]
    simp only [Machine.popInterval, hdpos, if_true] at hstep
    by_cases hc : checked = true ∧ m'.pos ≠ m'.effectiveEnd p
    · rw [if_pos hc] at hstep ⊢
      exact .fail_at hw hg' hstep (hl.behind (.of_eq rfl hg'.sound.held rfl rfl))
    · rw [if_neg hc] at hstep ⊢
      have hframes : (m'.step p).frames = m.frames := by
        rw [hstep]
        exact hl.frames
      have hn : m.frames.length ≤ (m'.step p).frames.length := by rw [hframes]
      have hn' : m.frames.length ≤ m'.frames.length := by rw [hl.frames]
      refine .ok_at (hw.trans (.one hn' hn)) (by rw [hstep]; rfl) ⟨hframes, ⟨pre, ?_, ?_⟩, ?_⟩ ?_
      · simpa using hpre
      · rw [hstep]
        exact hpop
      · rw [hstep]
        exact hl.scopes
      · rw [hstep]
        exact congrArg (fun w => ({ m'.state with windows := w } : St)) hpop

/-! ## Capture scopes -/

/-- A construct inside a capture scope that the turn opens. -/
theorem Sim.scoped {leaf : Leaf} (hg : Good p m) (hstep : m.step p = x)
    (hf : x.frames = m.frames) (hw : x.windows = m.windows)
    (hs : scopesOf x.builder = ⟨leaf, []⟩ :: scopesOf m.builder) (h : Sim p L d x (.endStruct k) o) :
    Sim p L d m k (do return (← o).closeScope) := by
  have hg' : Good p x := hstep ▸ hg.step
  have hn : m.frames.length = x.frames.length := by rw [hf]
  have hfirst : Within p m.frames.length m x := by
    have : m.frames.length ≤ (m.step p).frames.length := by rw [hstep, hf]
    exact hstep ▸ .one (Nat.le_refl _) this
  cases h with
  | timeout h => exact .timeout (hfirst.lasts (hn ▸ h))
  | missing hw hctl => exact .missing (hfirst.trans (hn ▸ hw)) hctl
  | fail hwithin hlike hb =>
    obtain ⟨pre, hpre⟩ := hb.windows
    obtain ⟨preS, S₁, hS, l, kids, more, R, hcons, rfl⟩ := hb.scopes
    rw [hs] at hcons
    obtain ⟨-, rfl⟩ := List.cons.inj hcons
    refine .fail (hfirst.trans (hn ▸ hwithin)) hlike ⟨by rw [hb.frames, hf], hb.held,
      ⟨pre, by rw [hpre, hw]⟩, preS ++ [⟨l, kids ++ more⟩], _, ?_, grown_refl _⟩
    rw [hS]
    simp
  | @ok m' hwithin hctl hl =>
    obtain ⟨pre, hpre, hwin⟩ := hl.windows
    obtain ⟨o₁, R, hR⟩ : ∃ o₁ R, scopesOf m.builder = o₁ :: R := by
      rcases hS : scopesOf m.builder with _ | ⟨o₁, R⟩
      · exact absurd hS (scopesOf_ne_nil _)
      · exact ⟨o₁, R, rfl⟩
    obtain ⟨o', ho', -⟩ := (hs ▸ hl.scopes).head
    have hopen : scopesOf m'.builder = o' :: o₁ :: R := by rw [ho', hR]
    have hclose := scopesOf_closeScope m'.builder hopen m'.pos
    have hstep' : m'.step p = { m' with builder := m'.builder.closeScope m'.pos }.go k := by
      simp only [Machine.step, hctl, Machine.exec]
    have hframes : (m'.step p).frames = m.frames := by
      rw [hstep']
      exact hl.frames.trans hf
    have hn' : m.frames.length ≤ m'.frames.length := by rw [hl.frames, hf]
    have hlast : Within p m.frames.length m' (m'.step p) := .one hn' (by rw [hframes])
    refine .ok_at (hfirst.trans ((hn ▸ hwithin).trans hlast)) (by rw [hstep']; rfl)
      ⟨hframes, ⟨pre, hpre, ?_⟩, ?_⟩ ?_
    · rw [hstep', ← hw]
      exact hwin
    · rw [hstep']
      show Grown _ (scopesOf (m'.builder.closeScope m'.pos))
      rw [hclose, hR]
      exact .attachCapture _ (by simp)
    · rw [hstep']
      refine (congrArg (fun S => ({ m'.state with scopes := S } : St)) hclose).trans ?_
      simp only [St.closeScope, Machine.state, hopen]

end

end Bbq.Cek
