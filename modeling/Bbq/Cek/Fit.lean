import Bbq.Cek.Scope

/-!
# Frames, windows and captures in step with the scopes

`Fit Γ F W S` says that the frames `F`, the interval windows `W` and the open capture scopes `S` (each
innermost first) are what running inside the scopes `Γ` leaves: one frame, window or capture scope
for each scope that pushes one, a savepoint saved where its scope was entered, and under a return
frame the same for the caller.

`Inside` is membership in the active window. It is only claimed under `strict`; without it `Fit` is
about shapes alone.

* `Fit.grow`: capturing more in the innermost scope disturbs nothing.
* `Fit.split`: down to the first savepoint, everything opened since is dropped.
* `scopesOf_restore`: restoring a savepoint's mark gives back the scopes it was taken in.
-/

namespace Bbq.Cek

open Zcow (Builder Cell Node)

/-! ## Windows -/

/-- `[start, end)`. -/
abbrev Window := Nat × Nat

/-- The innermost window, or the whole input. -/
def bounds (len : Nat) : List Window → Window
  | [] => (0, len)
  | w :: _ => w

/-- A window opened inside these lies within the innermost. -/
structure Nested (len : Nat) (w : Window) (W : List Window) : Prop where
  lo : (bounds len W).1 ≤ w.1
  mid : w.1 ≤ w.2
  hi : w.2 ≤ (bounds len W).2

/-- The offset lies in the active window. -/
def Inside (strict : Prop) (len : Nat) (W : List Window) (x : Nat) : Prop :=
  strict → (bounds len W).1 ≤ x ∧ x ≤ (bounds len W).2

/-- Every window lies within the one around it. -/
def NestedAll (len : Nat) : List Window → Prop
  | [] => True
  | w :: W => Nested len w W ∧ NestedAll len W

theorem NestedAll.suffix {len : Nat} {pre W : List Window} (h : NestedAll len (pre ++ W)) :
    NestedAll len W := by
  induction pre with
  | nil => exact h
  | cons w pre ih => exact ih h.2

/-- What is inside a nested window is inside the one around it. -/
theorem Inside.outer {strict : Prop} {len x : Nat} {w : Window} {W : List Window}
    (h : Inside strict len (w :: W) x) (hw : Nested len w W) : Inside strict len W x := fun hs =>
  ⟨Nat.le_trans hw.lo (h hs).1, Nat.le_trans (h hs).2 hw.hi⟩

namespace Machine

/-- The active windows, innermost first. -/
def windows (m : Machine) : List Window := (m.intervals.take m.intervalDepth).reverse

theorem windows_zero {m : Machine} (h : m.intervalDepth = 0) : m.windows = [] := by
  simp [windows, h]

theorem windows_succ {m : Machine} {d : Nat} (h : m.intervalDepth = d + 1)
    (hd : m.intervalDepth ≤ m.intervals.length) :
    ∃ w, m.intervals[d]? = some w ∧ m.windows = w :: (m.intervals.take d).reverse := by
  have hlt : d < m.intervals.length := by omega
  refine ⟨m.intervals[d], List.getElem?_eq_getElem hlt, ?_⟩
  rw [windows, h, List.take_succ_eq_append_getElem hlt, List.reverse_append]
  rfl

theorem length_windows {m : Machine} (hd : m.intervalDepth ≤ m.intervals.length) :
    m.windows.length = m.intervalDepth := by
  simp [windows, hd]

section

variable {m : Machine} (hd : m.intervalDepth ≤ m.intervals.length)
include hd

theorem effectiveEnd_eq (p : Program) : m.effectiveEnd p = (bounds p.bytes.length m.windows).2 := by
  unfold effectiveEnd window
  split
  · rename_i h
    simp [windows_zero h, bounds]
  · rename_i d h
    obtain ⟨w, hw, hW⟩ := windows_succ h hd
    simp [hw, hW, bounds]

theorem effectiveStart_eq (len : Nat) : m.effectiveStart = (bounds len m.windows).1 := by
  unfold effectiveStart window
  split
  · rename_i h
    simp [windows_zero h, bounds]
  · rename_i d h
    obtain ⟨w, hw, hW⟩ := windows_succ h hd
    simp [hw, hW, bounds]

/-- Back at a depth, the windows of that depth are active again. -/
theorem windows_restore {pre W : List Window} (h : m.windows = pre ++ W) :
    (m.intervals.take W.length).reverse = W := by
  have hlen := length_windows hd
  have htake : m.intervals.take m.intervalDepth = W.reverse ++ pre.reverse := by
    rw [← List.reverse_append, ← h, windows, List.reverse_reverse]
  have hW : W.length ≤ m.intervalDepth := by
    rw [h, List.length_append] at hlen
    omega
  have : m.intervals.take W.length = W.reverse := by
    rw [← Nat.min_eq_left hW, ← List.take_take, htake]
    simp
  rw [this, List.reverse_reverse]

end

end Machine

/-! ## Capture scopes -/

/-- Only the innermost scope has changed, and only by more children. -/
def Grown (S S' : List OpenScope) : Prop :=
  ∃ l kids more R, S = ⟨l, kids⟩ :: R ∧ S' = ⟨l, kids ++ more⟩ :: R

namespace Grown

variable {S S' S'' : List OpenScope}

theorem refl (o : OpenScope) (R : List OpenScope) : Grown (o :: R) (o :: R) :=
  ⟨o.leaf, o.kids, [], R, rfl, by simp⟩

theorem trans (h : Grown S S') (h' : Grown S' S'') : Grown S S'' := by
  obtain ⟨l, kids, more, R, rfl, rfl⟩ := h
  obtain ⟨l', kids', more', R', heq, rfl⟩ := h'
  simp only [List.cons.injEq, OpenScope.mk.injEq] at heq
  obtain ⟨⟨rfl, rfl⟩, rfl⟩ := heq
  exact ⟨l, kids, more ++ more', R, rfl, by rw [List.append_assoc]⟩

theorem head {o : OpenScope} {R : List OpenScope} (h : Grown (o :: R) S') :
    ∃ o', S' = o' :: R ∧ o'.leaf = o.leaf := by
  obtain ⟨l, kids, more, R', heq, rfl⟩ := h
  simp only [List.cons.injEq] at heq
  exact ⟨_, by rw [heq.2], by rw [heq.1]⟩

end Grown

/-- `builder::mark`, read off the scopes. -/
def markOf : List OpenScope → Builder.Mark
  | [] => ⟨0, 0⟩
  | o :: R => ⟨R.length, o.kids.length⟩

/-- `builder::restore`, on scopes. -/
def restoreScopes (mk : Builder.Mark) (S : List OpenScope) : List OpenScope :=
  match S.drop (S.length - 1 - mk.depth) with
  | [] => []
  | o :: R => ⟨o.leaf, o.kids.take mk.kids⟩ :: R

/-- Restoring the mark of scopes that have since grown, with more opened inside. -/
theorem restoreScopes_markOf {S S' pre : List OpenScope} (h : Grown S S') :
    restoreScopes (markOf S) (pre ++ S') = S := by
  obtain ⟨l, kids, more, R, rfl, rfl⟩ := h
  simp [restoreScopes, markOf]

section Builder

variable (b : Builder)

@[simp] theorem length_capturesOf (ns : List Node) : (capturesOf ns).length = ns.length := by
  induction ns with
  | nil => rfl
  | cons n ns ih => simp [capturesOf, ih]

theorem capturesOf_append (ns ms : List Node) :
    capturesOf (ns ++ ms) = capturesOf ns ++ capturesOf ms := by
  induction ns with
  | nil => rfl
  | cons n ns ih => simp [capturesOf, ih]

theorem capturesOf_take (ns : List Node) (i : Nat) :
    capturesOf (ns.take i) = (capturesOf ns).take i := by
  induction ns generalizing i with
  | nil => simp [capturesOf]
  | cons n ns ih =>
    rcases i with _ | i
    · rfl
    · simp [capturesOf, ih]

theorem scopesOf_ne_nil : scopesOf b ≠ [] := by simp [scopesOf]

theorem mark_eq : b.mark = markOf (scopesOf b) := by
  rcases hst : b.stack with _ | ⟨n, rest⟩
  · simp [Builder.mark, Builder.current, scopesOf, markOf, rootScope, hst]
  · simp [Builder.mark, Builder.current, scopesOf, markOf, hst]

@[simp] theorem scopesOf_open (name : Option String) (t : CaptureType) (pos : Nat) (tag : Int) :
    scopesOf (b.openScope name t pos tag) =
      ⟨{ Leaf.carrier t pos pos none with name }, []⟩ :: scopesOf b := by
  simp [Builder.openScope, scopesOf, leafOf, capturesOf, Leaf.carrier, Inhabited.default]

@[simp] theorem scopesOf_clearPendingTag : scopesOf b.clearPendingTag = scopesOf b := rfl

@[simp] theorem scopesOf_setPendingVariantTag (tag : Int) :
    scopesOf (b.setPendingVariantTag tag) = scopesOf b := rfl

@[simp] theorem scopesOf_setPendingCountField (path : Option String) :
    scopesOf (b.setPendingCountField path) = scopesOf b := rfl

theorem scopesOf_modifyScope {f : Cell → Cell} (hf : ∀ c, leafOf (f c) = leafOf c) :
    scopesOf (b.modifyScope f) = scopesOf b := by
  unfold Builder.modifyScope
  split
  · rfl
  · rename_i hst
    simp [scopesOf, hst, hf]

@[simp] theorem scopesOf_scopeIsBitsRun (msbFirst : Bool) :
    scopesOf (b.scopeIsBitsRun msbFirst) = scopesOf b := by
  unfold Builder.scopeIsBitsRun
  split
  · rfl
  · exact scopesOf_modifyScope b fun _ => rfl

@[simp] theorem scopesOf_scopeDeterminesRest (f : Option String) :
    scopesOf (b.scopeDeterminesRest f) = scopesOf b := by
  unfold Builder.scopeDeterminesRest
  split
  · rfl
  · exact scopesOf_modifyScope b fun _ => rfl

@[simp] theorem scopesOf_beginStruct (name : Option String) (pos : Nat) :
    scopesOf (b.beginStruct name pos) =
      ⟨{ Leaf.carrier .struct pos pos none with name }, []⟩ :: scopesOf b := by
  simp [Builder.beginStruct]

@[simp] theorem scopesOf_beginVariant (name : Option String) (pos : Nat) (tag : Int) :
    scopesOf (b.beginVariant name pos tag) =
      ⟨{ Leaf.carrier .struct pos pos none with name }, []⟩ :: scopesOf b := by
  simp [Builder.beginVariant]

@[simp] theorem scopesOf_beginArray (name : Option String) (pos : Nat) :
    scopesOf (b.beginArray name pos) =
      ⟨{ Leaf.carrier .array pos pos none with name }, []⟩ :: scopesOf b := by
  unfold Builder.beginArray
  split
  · simp
  · have hopen : scopesOf (b.clearPendingTag.openScope name .array pos b.pendingVariantTag) =
        ⟨{ Leaf.carrier .array pos pos none with name }, []⟩ :: scopesOf b := by
      simp
    rw [← hopen]
    exact scopesOf_modifyScope _ fun _ => rfl

/-- One more child of the innermost scope. -/
def attachCapture (c : Capture) : List OpenScope → List OpenScope
  | [] => []
  | o :: R => ⟨o.leaf, o.kids ++ [c]⟩ :: R

theorem scopesOf_attach (n : Node) :
    scopesOf (b.attach n) = attachCapture (captureOf n) (scopesOf b) := by
  rcases hst : b.stack with _ | ⟨o, rest⟩
  · simp [Builder.attach, Builder.setCurrent, Builder.current, scopesOf, hst, attachCapture,
      capturesOf_append, capturesOf, rootScope]
  · simp [Builder.attach, Builder.setCurrent, Builder.current, scopesOf, hst, attachCapture,
      capturesOf_append, capturesOf]

theorem Grown.attachCapture (c : Capture) {S : List OpenScope} (h : S ≠ []) :
    Grown S (attachCapture c S) := by
  rcases S with _ | ⟨o, R⟩
  · exact absurd rfl h
  · exact ⟨o.leaf, o.kids, [c], R, rfl, rfl⟩

/-- The leaf `add_field` records. -/
def fieldLeaf (name : Option String) (start stop : Nat) (t : CaptureType)
    (v : Option ComputedValue) (enc : Zcow.Enc) (bits : Zcow.BitsAt) : Leaf :=
  { name, type := t, startOffset := start, endOffset := stop, computedValue := v, enc, bits }

theorem scopesOf_addField (name : Option String) (start stop : Nat) (t : CaptureType)
    (v : Option ComputedValue) (enc : Zcow.Enc) (bits : Zcow.BitsAt) :
    scopesOf (b.addField name start stop t v enc bits) =
      attachCapture (.mk (fieldLeaf name start stop t v enc bits) []) (scopesOf b) := by
  simp [Builder.addField, scopesOf_attach, captureOf, capturesOf, leafOf, fieldLeaf]

/-- Closing the innermost scope makes it a child of the next. -/
theorem scopesOf_closeScope {o o' : OpenScope} {R : List OpenScope}
    (h : scopesOf b = o :: o' :: R) (pos : Nat) :
    scopesOf (b.closeScope pos) =
      attachCapture (.mk { o.leaf with endOffset := pos } o.kids) (o' :: R) := by
  rcases hst : b.stack with _ | ⟨n, rest⟩
  · simp [scopesOf, hst] at h
  · have hrest : scopesOf { b with stack := rest } = o' :: R ∧
        o = ⟨leafOf n.cell, capturesOf n.kids⟩ := by
      simp only [scopesOf, hst, List.map_cons, List.cons_append, List.cons.injEq] at h
      exact ⟨h.2, h.1.symm⟩
    obtain ⟨hrest, rfl⟩ := hrest
    simp only [Builder.closeScope, hst, scopesOf_attach, hrest, captureOf]
    rfl

/-- **Restoring** gives back the scopes as the mark found them. -/
theorem scopesOf_restore (mk : Builder.Mark) :
    scopesOf (b.restore mk) = restoreScopes mk (scopesOf b) := by
  have hresize : scopesOf (b.resize mk.depth) =
      (scopesOf b).drop ((scopesOf b).length - 1 - mk.depth) := by
    unfold Builder.resize
    split
    · rename_i hlt
      simp only [scopesOf, List.length_append, List.length_map, List.length_singleton]
      rw [Nat.add_sub_cancel, List.drop_append_of_le_length (by simp), List.map_drop]
    · rename_i hle
      have : (scopesOf b).length - 1 - mk.depth = 0 := by
        simp [scopesOf]
        omega
      rw [this, List.drop_zero]
  unfold restoreScopes
  rw [← hresize]
  unfold Builder.restore
  generalize b.resize mk.depth = c
  rcases hst : c.stack with _ | ⟨n, rest⟩
  · by_cases hk : mk.kids < c.roots.length
    · simp [Builder.current, Builder.setCurrent, scopesOf, hst, rootScope, hk, capturesOf_take]
    · have : (capturesOf c.roots).take mk.kids = capturesOf c.roots :=
        List.take_of_length_le (by simp; omega)
      simp [Builder.current, scopesOf, hst, rootScope, hk, this]
  · by_cases hk : mk.kids < n.kids.length
    · simp [Builder.current, Builder.setCurrent, scopesOf, hst, hk, capturesOf_take]
    · have : (capturesOf n.kids).take mk.kids = capturesOf n.kids :=
        List.take_of_length_le (by simp; omega)
      simp [Builder.current, scopesOf, hst, hk, this]

end Builder

/-! ## Frames -/

/-- What a savepoint saved of the windows and capture scopes it was pushed in. -/
structure Saved (strict : Prop) (len : Nat) (sp : Savepoint) (W : List Window)
    (S : List OpenScope) : Prop where
  depth : sp.savedIntervalDepth = W.length
  mark : sp.captureMark = markOf S
  pos : Inside strict len W sp.savedPos

/-- The scope a savepoint stands for, and the target it must have. -/
inductive Aims (strict : Prop) : List Scope → Scope → Kont → Prop
  | arm {Γ link} : Linked strict Γ link → Aims strict Γ (.arm link) link
  | lastArm {Γ} : Aims strict Γ .lastArm exhausted
  | opt {Γ k} : Typed strict Γ 0 k →
      Aims strict Γ (.opt (.onFail (some k) none true)) (.onFail (some k) none true)
  | site {Γ s} : s.resyncs = true → Placed strict s Γ →
      Aims strict (.loop :: Γ) (.site s) (.resync s)

/-- Frames, windows and capture scopes are those of running in the scopes `Γ`. -/
inductive Fit (strict : Prop) (len : Nat) :
    List Scope → List Frame → List Window → List OpenScope → Prop
  | bottom {kids} : Fit strict len [] [] [] [rootScope kids]
  | call {Γ F W S rf} :
      Fit strict len Γ F W S → Typed strict Γ 0 rf.returnTo →
      rf.ruleFailTarget = backtrackTarget Γ → Fit strict len [] (.return rf :: F) W S
  | struct {Γ F W S o} :
      Fit strict len Γ F W S → Inside strict len W o.leaf.startOffset →
      Fit strict len (.struct :: Γ) F W (o :: S)
  | loop {Γ F W S o lf} :
      Fit strict len Γ F W S → Inside strict len W o.leaf.startOffset →
      Fit strict len (.loop :: Γ) (.loop lf :: F) W (o :: S)
  | window {Γ F W S w} :
      Fit strict len Γ F W S → Fit strict len (.window :: Γ) F (w :: W) S
  /-- A window that no scope closes. -/
  | leak {Γ F W S w} : ¬ strict → Fit strict len Γ F W S → Fit strict len Γ F (w :: W) S
  | save {Γ sc target F W S₀ S sp} :
      Fit strict len Γ F W S₀ → Grown S₀ S → Saved strict len sp W S₀ →
      Aims strict Γ sc target → sp.onFailTarget = some target →
      Fit strict len (sc :: Γ) (.savepoint sp :: F) W S

namespace Fit

variable {strict : Prop} {len : Nat} {Γ : List Scope} {F : List Frame} {W : List Window}
  {S S' : List OpenScope}

theorem exists_cons (h : Fit strict len Γ F W S) : ∃ o R, S = o :: R := by
  induction h with
  | bottom => exact ⟨_, _, rfl⟩
  | call _ _ _ ih => exact ih
  | struct => exact ⟨_, _, rfl⟩
  | loop => exact ⟨_, _, rfl⟩
  | window _ ih => exact ih
  | leak _ _ ih => exact ih
  | save _ hg =>
    obtain ⟨l, kids, more, R, -, rfl⟩ := hg
    exact ⟨_, _, rfl⟩

/-- More captures in the innermost scope. -/
theorem grow (h : Fit strict len Γ F W S) (hg : Grown S S') : Fit strict len Γ F W S' := by
  induction h generalizing S' with
  | bottom =>
    obtain ⟨l, kids, more, R, heq, rfl⟩ := hg
    simp only [rootScope, List.cons.injEq, OpenScope.mk.injEq] at heq
    obtain ⟨⟨rfl, rfl⟩, rfl⟩ := heq
    exact .bottom
  | call _ hk ht ih => exact .call (ih hg) hk ht
  | struct h hin =>
    obtain ⟨o', rfl, ho⟩ := hg.head
    exact .struct h (ho ▸ hin)
  | loop h hin =>
    obtain ⟨o', rfl, ho⟩ := hg.head
    exact .loop h (ho ▸ hin)
  | window _ ih => exact .window (ih hg)
  | leak hs _ ih => exact .leak hs (ih hg)
  | save h hg' hsv ha ht => exact .save h (hg'.trans hg) hsv ha ht

/-! ### Inversion -/

theorem inv_struct (h : Fit strict len (.struct :: Γ) F W S) :
    ∃ o S', S = o :: S' ∧ Fit strict len Γ F W S' ∧ Inside strict len W o.leaf.startOffset := by
  generalize hΔ : Scope.struct :: Γ = Δ at h
  induction h with
  | bottom => cases hΔ
  | call => cases hΔ
  | struct h hin =>
    cases hΔ
    exact ⟨_, _, rfl, h, hin⟩
  | loop => cases hΔ
  | window => cases hΔ
  | leak hs _ ih =>
    obtain ⟨o, S', rfl, h, -⟩ := ih hΔ
    exact ⟨o, S', rfl, .leak hs h, fun hst => absurd hst hs⟩
  | save _ _ _ ha =>
    cases hΔ
    cases ha

theorem inv_loop (h : Fit strict len (.loop :: Γ) F W S) :
    ∃ lf F' o S', F = .loop lf :: F' ∧ S = o :: S' ∧ Fit strict len Γ F' W S' ∧
      Inside strict len W o.leaf.startOffset := by
  generalize hΔ : Scope.loop :: Γ = Δ at h
  induction h with
  | bottom => cases hΔ
  | call => cases hΔ
  | struct => cases hΔ
  | loop h hin =>
    cases hΔ
    exact ⟨_, _, _, _, rfl, rfl, h, hin⟩
  | window => cases hΔ
  | leak hs _ ih =>
    obtain ⟨lf, F', o, S', rfl, rfl, h, -⟩ := ih hΔ
    exact ⟨lf, F', o, S', rfl, rfl, .leak hs h, fun hst => absurd hst hs⟩
  | save _ _ _ ha =>
    cases hΔ
    cases ha

theorem inv_window (h : Fit strict len (.window :: Γ) F W S) :
    ∃ w W', W = w :: W' ∧ Fit strict len Γ F W' S := by
  generalize hΔ : Scope.window :: Γ = Δ at h
  induction h with
  | bottom => cases hΔ
  | call => cases hΔ
  | struct => cases hΔ
  | loop => cases hΔ
  | window h =>
    cases hΔ
    exact ⟨_, _, rfl, h⟩
  | leak hs _ ih =>
    obtain ⟨w', W', rfl, h⟩ := ih hΔ
    exact ⟨_, _, rfl, .leak hs h⟩
  | save _ _ _ ha =>
    cases hΔ
    cases ha

/-- Under a scope that has a savepoint, the savepoint is the top frame. -/
theorem inv_save {sc : Scope} (h : Fit strict len (sc :: Γ) F W S)
    (hsc : sc ≠ .struct ∧ sc ≠ .loop ∧ sc ≠ .window) :
    ∃ sp F' target, F = .savepoint sp :: F' ∧ Aims strict Γ sc target ∧
      sp.onFailTarget = some target ∧ Fit strict len Γ F' W S := by
  generalize hΔ : sc :: Γ = Δ at h
  induction h with
  | bottom => cases hΔ
  | call => cases hΔ
  | struct =>
    cases hΔ
    exact absurd rfl hsc.1
  | loop =>
    cases hΔ
    exact absurd rfl hsc.2.1
  | window =>
    cases hΔ
    exact absurd rfl hsc.2.2
  | leak hs _ ih =>
    obtain ⟨sp, F', target, rfl, ha, ht, h⟩ := ih hΔ
    exact ⟨sp, F', target, rfl, ha, ht, .leak hs h⟩
  | save h hg _ ha ht =>
    cases hΔ
    exact ⟨_, _, _, rfl, ha, ht, h.grow hg⟩

/-- At the start of a rule there is a return frame, or nothing. -/
theorem inv_call (h : Fit strict len [] F W S) :
    F = [] ∨ ∃ rf F' Δ, F = .return rf :: F' ∧ Fit strict len Δ F' W S ∧
      Typed strict Δ 0 rf.returnTo ∧ rf.ruleFailTarget = backtrackTarget Δ := by
  generalize hΔ : ([] : List Scope) = Δ at h
  induction h with
  | bottom => exact .inl rfl
  | call h hk ht => exact .inr ⟨_, _, _, rfl, h, hk, ht⟩
  | struct => cases hΔ
  | loop => cases hΔ
  | window => cases hΔ
  | leak hs _ ih =>
    rcases ih hΔ with rfl | ⟨rf, F', Δ, rfl, h, hk, ht⟩
    · exact .inl rfl
    · exact .inr ⟨rf, F', Δ, rfl, .leak hs h, hk, ht⟩
  | save => cases hΔ

/-! ### Down to a savepoint -/

/-- Frames that fit once the innermost windows and capture scopes are dropped. -/
def Over (strict : Prop) (len : Nat) (Γ : List Scope) (F : List Frame) (W : List Window)
    (S : List OpenScope) : Prop :=
  ∃ preW W' preS S', W = preW ++ W' ∧ S = preS ++ S' ∧ Fit strict len Γ F W' S'

theorem over_self (h : Fit strict len Γ F W S) : Over strict len Γ F W S :=
  ⟨[], W, [], S, rfl, rfl, h⟩

namespace Over

theorem cons_scope {o : OpenScope} (h : Over strict len Γ F W S) :
    Over strict len Γ F W (o :: S) := by
  obtain ⟨preW, W', preS, S', rfl, rfl, h⟩ := h
  exact ⟨preW, W', o :: preS, S', rfl, rfl, h⟩

theorem cons_window {w : Window} (h : Over strict len Γ F W S) :
    Over strict len Γ F (w :: W) S := by
  obtain ⟨preW, W', preS, S', rfl, rfl, h⟩ := h
  exact ⟨w :: preW, W', preS, S', rfl, rfl, h⟩

theorem append {preW : List Window} {preS : List OpenScope} (h : Over strict len Γ F W S) :
    Over strict len Γ F (preW ++ W) (preS ++ S) := by
  obtain ⟨preW', W', preS', S', rfl, rfl, h⟩ := h
  exact ⟨preW ++ preW', W', preS ++ preS', S', by simp, by simp, h⟩

theorem grow (h : Over strict len Γ F W S) (hg : Grown S S') : Over strict len Γ F W S' := by
  obtain ⟨preW, W', preS, T, rfl, rfl, h⟩ := h
  rcases preS with _ | ⟨o, preS⟩
  · exact ⟨preW, W', [], S', rfl, rfl, h.grow hg⟩
  · obtain ⟨o', rfl, -⟩ := hg.head
    exact ⟨preW, W', o' :: preS, T, rfl, rfl, h⟩

end Over

/-- What `fail` finds: nothing, or a savepoint with a target, and frames that fit from there. -/
theorem unwind (h : Fit strict len Γ F W S) :
    Cek.unwind F = none ∨ ∃ k sp below Δ, Cek.unwind F = some (k, .savepoint sp :: below) ∧
      sp.onFailTarget = some k ∧ Over strict len Δ (.savepoint sp :: below) W S := by
  induction h with
  | bottom => exact .inl rfl
  | call _ _ _ ih => exact ih
  | struct _ _ ih =>
    rcases ih with ih | ⟨k, sp, below, Δ, hu, ht, hov⟩
    · exact .inl ih
    · exact .inr ⟨k, sp, below, Δ, hu, ht, hov.cons_scope⟩
  | loop _ _ ih =>
    rcases ih with ih | ⟨k, sp, below, Δ, hu, ht, hov⟩
    · exact .inl ih
    · exact .inr ⟨k, sp, below, Δ, hu, ht, hov.cons_scope⟩
  | window _ ih =>
    rcases ih with ih | ⟨k, sp, below, Δ, hu, ht, hov⟩
    · exact .inl ih
    · exact .inr ⟨k, sp, below, Δ, hu, ht, hov.cons_window⟩
  | leak _ _ ih =>
    rcases ih with ih | ⟨k, sp, below, Δ, hu, ht, hov⟩
    · exact .inl ih
    · exact .inr ⟨k, sp, below, Δ, hu, ht, hov.cons_window⟩
  | save h hg hsv ha ht =>
    exact .inr ⟨_, _, _, _, by simp [Cek.unwind, ht], ht, (Fit.save h hg hsv ha ht).over_self⟩

/-- A savepoint in place: where it was saved, what it stands for, and what fits below it. -/
structure At (strict : Prop) (len : Nat) (sp : Savepoint) (below : List Frame)
    (W : List Window) (S : List OpenScope) (Δ : List Scope) (sc : Scope) (target : Kont) :
    Prop where
  saved : Saved strict len sp W S
  aims : Aims strict Δ sc target
  target : sp.onFailTarget = some target
  fit : Fit strict len Δ below W S

/-- The first savepoint, and what fits once its state is restored. -/
theorem split {above below : List Frame} {sp : Savepoint} (h : Fit strict len Γ F W S)
    (hsplit : splitSavepoint F = some (above, sp, below)) :
    ∃ preW W' preS S₁ S₀ Δ sc target, W = preW ++ W' ∧ S = preS ++ S₁ ∧ Grown S₀ S₁ ∧
      At strict len sp below W' S₀ Δ sc target := by
  induction h generalizing above with
  | bottom => cases hsplit
  | call _ _ _ ih =>
    obtain ⟨⟨above', sp', below'⟩, hs, heq⟩ := Option.map_eq_some_iff.1 hsplit
    cases heq
    exact ih hs
  | struct _ _ ih =>
    obtain ⟨preW, W', preS, S₁, S₀, Δ, sc, target, rfl, rfl, hg, hat⟩ := ih hsplit
    exact ⟨preW, W', _ :: preS, S₁, S₀, Δ, sc, target, rfl, rfl, hg, hat⟩
  | loop _ _ ih =>
    obtain ⟨⟨above', sp', below'⟩, hs, heq⟩ := Option.map_eq_some_iff.1 hsplit
    cases heq
    obtain ⟨preW, W', preS, S₁, S₀, Δ, sc, target, rfl, rfl, hg, hat⟩ := ih hs
    exact ⟨preW, W', _ :: preS, S₁, S₀, Δ, sc, target, rfl, rfl, hg, hat⟩
  | window _ ih =>
    obtain ⟨preW, W', preS, S₁, S₀, Δ, sc, target, rfl, rfl, hg, hat⟩ := ih hsplit
    exact ⟨_ :: preW, W', preS, S₁, S₀, Δ, sc, target, rfl, rfl, hg, hat⟩
  | leak _ _ ih =>
    obtain ⟨preW, W', preS, S₁, S₀, Δ, sc, target, rfl, rfl, hg, hat⟩ := ih hsplit
    exact ⟨_ :: preW, W', preS, S₁, S₀, Δ, sc, target, rfl, rfl, hg, hat⟩
  | save h hg hsv ha ht =>
    cases hsplit
    exact ⟨[], _, [], _, _, _, _, _, rfl, rfl, hg, hsv, ha, ht, h⟩

/-- In scopes that have a failure target, the first savepoint is that target's, unless it belongs to
a choice in its last arm. -/
theorem split_target {t : Kont} (h : Fit strict len Γ F W S) (ht : backtrackTarget Γ = some t) :
    ∃ above sp below, splitSavepoint F = some (above, sp, below) ∧
      (sp.onFailTarget = some exhausted ∨ sp.onFailTarget = some t) := by
  induction h with
  | bottom => cases ht
  | call => cases ht
  | struct _ _ ih => exact ih ht
  | @loop _ _ _ _ _ lf _ _ ih =>
    obtain ⟨above, sp, below, hs, h⟩ := ih ht
    exact ⟨.loop lf :: above, sp, below, by simp [splitSavepoint, hs], h⟩
  | window _ ih => exact ih ht
  | leak _ _ ih => exact ih ht
  | save h hg hsv ha htgt =>
    refine ⟨[], _, _, rfl, ?_⟩
    cases ha with
    | arm hl => exact .inr (htgt.trans ht)
    | lastArm => exact .inl htgt
    | opt hk => exact .inr (htgt.trans ht)
    | site hres hp => exact .inr (htgt.trans ht)

/-- Where an abort goes: to the failure target of the scopes its caller stood in. -/
theorem abort {t : Kont} {F' : List Frame} (h : Fit strict len Γ F W S)
    (hnone : backtrackTarget Γ = none) (ha : abortTarget F = some (t, F')) :
    ∃ Δ, Over strict len Δ F' W S ∧ backtrackTarget Δ = some t := by
  induction h with
  | bottom => cases ha
  | @call Γ F W S rf h hk hrf ih =>
    rcases htgt : rf.ruleFailTarget with _ | target
    · simp only [abortTarget, htgt] at ha
      exact ih (hrf ▸ htgt) ha
    · simp only [abortTarget, htgt, Option.some.injEq, Prod.mk.injEq] at ha
      obtain ⟨rfl, rfl⟩ := ha
      exact ⟨Γ, h.over_self, hrf ▸ htgt⟩
  | struct _ _ ih =>
    obtain ⟨Δ, hov, ht⟩ := ih hnone ha
    exact ⟨Δ, hov.cons_scope, ht⟩
  | loop _ _ ih =>
    obtain ⟨Δ, hov, ht⟩ := ih hnone ha
    exact ⟨Δ, hov.cons_scope, ht⟩
  | window _ ih =>
    obtain ⟨Δ, hov, ht⟩ := ih hnone ha
    exact ⟨Δ, hov.cons_window, ht⟩
  | leak _ _ ih =>
    obtain ⟨Δ, hov, ht⟩ := ih hnone ha
    exact ⟨Δ, hov.cons_window, ht⟩
  | save _ hg _ haim _ ih =>
    -- only a choice in its last arm lets the walk pass
    cases haim with
    | arm => cases hnone
    | lastArm =>
      obtain ⟨Δ, hov, ht⟩ := ih hnone ha
      exact ⟨Δ, hov.grow hg, ht⟩
    | opt => cases hnone
    | site => cases hnone

end Fit

end Bbq.Cek
