import Mathlib.Logic.Function.Iterate
import Bbq.Lite.Builder

/-!
# What a mark covers of `bbq_capture_builder`

The C builder keeps one thing beside the vectors `bbq_cap_restore` truncates: the pending variant
tag. `effect` follows a sequence of calls on it alone.

Results:
* `nested_step`: scopes are nested in the capture list in every builder the interface can reach.
* `copyToArena_fuel`: the fuel `finish` gives the resolution is enough.
* **`same_restore_iff`**: the restored builder is the marked one, for every later sequence of
  calls, exactly when the calls close no marked scope and leave the pending tag as it was.
-/

namespace Bbq.Lite

open Bbq.Lib

/-- One call, on the pending tag and the number of scopes opened since the mark. `none` when it
closes one of the `marked` scopes open at the mark; with none open there is nothing to close. -/
def tagStep (marked : Nat) (level : Nat) (tag : Int) : Op → Option (Nat × Int)
  | .beginStruct .. | .beginArray .. => some (level + 1, -1)
  | .beginVariant _ _ t => some (level + 1, if t ≠ -1 then tag else -1)
  | .endStruct _ | .endArray _ =>
    match level, marked with
    | n + 1, _ => some (n, tag)
    | 0, 0 => some (0, tag)
    | 0, _ + 1 => none
  | .addField .. => some (level, -1)
  | .setPendingVariantTag t => some (level, t)

/-- A sequence of calls on the pending tag; `none` once a marked scope is closed. -/
def tagEffect (marked : Nat) : Nat → Int → List Op → Option (Nat × Int)
  | level, tag, [] => some (level, tag)
  | level, tag, o :: ops =>
    match tagStep marked level tag o with
    | none => none
    | some (level', tag') => tagEffect marked level' tag' ops

namespace Builder

/-- **The condition**: the calls close no scope that was open at the mark, and leave the pending
tag as it was. -/
def Covered (b : Builder) (ops : List Op) : Prop :=
  (tagEffect b.scopes.length 0 b.pendingVariantTag ops).map Prod.snd = some b.pendingVariantTag

instance (b : Builder) (ops : List Op) : Decidable (b.Covered ops) :=
  inferInstanceAs (Decidable (_ = _))

/-! ## Nesting -/

/-- How many captures there are, then where each open scope's children start, innermost first. -/
def heights (s : Builder) : List Nat := s.fields.length :: s.scopes.map Scope.firstChildIndex

/-- Scopes are nested: each starts no later than the ones inside it. -/
def Nested (s : Builder) : Prop := s.heights.Pairwise (fun x y => y ≤ x)

/-- The innermost scope becomes one capture. -/
def fold : List Nat → List Nat
  | n :: f :: w => (min f n + 1) :: w
  | w => w

/-- What a call does to the heights. -/
def heightsAfter : Op → List Nat → List Nat
  | .beginStruct .., n :: w | .beginArray .., n :: w | .beginVariant .., n :: w => n :: n :: w
  | .endStruct _, w | .endArray _, w => fold w
  | .addField .., n :: w => (n + 1) :: w
  | _, w => w

theorem heights_beginScope (s : Builder) (name : Option String) (pos : Nat) (t : CaptureType)
    (tag : Int) : (s.beginScope name pos t tag).heights = s.fields.length :: s.heights := by
  unfold beginScope
  split <;> rfl

theorem heights_endScope (s : Builder) (pos : Nat) : (s.endScope pos).heights = fold s.heights := by
  cases hs : s.scopes with
  | nil => simp [endScope, heights, fold, hs]
  | cons scope rest => simp [endScope, heights, fold, hs]

theorem heights_step (s : Builder) (o : Op) : (s.step o).heights = heightsAfter o s.heights := by
  cases o with
  | beginStruct | beginArray | beginVariant => exact heights_beginScope ..
  | endStruct pos | endArray pos => exact heights_endScope s pos
  | addField name start stop t cv => simp [step, addField, heights, heightsAfter]
  | setPendingVariantTag tag => rfl

theorem nested_fold {w : List Nat} (h : w.Pairwise fun x y => y ≤ x) :
    (fold w).Pairwise fun x y => y ≤ x := by
  match w, h with
  | [], h => exact h
  | [n], h => exact h
  | n :: f :: w, h =>
    obtain ⟨hn, hf, hw⟩ : (∀ y ∈ f :: w, y ≤ n) ∧ (∀ y ∈ w, y ≤ f) ∧ w.Pairwise fun x y => y ≤ x := by
      simpa using h
    refine List.pairwise_cons.2 ⟨fun y hy => ?_, hw⟩
    have h1 := hf y hy
    have h2 := hn y (List.mem_cons_of_mem f hy)
    omega

/-- **Step lemma**: every call keeps the scopes nested. -/
theorem nested_step {s : Builder} (h : s.Nested) (o : Op) : (s.step o).Nested := by
  unfold Nested at h ⊢
  rw [heights_step]
  cases o with
  | beginStruct | beginArray | beginVariant =>
    refine List.pairwise_cons.2 ⟨fun y hy => ?_, h⟩
    rcases List.mem_cons.1 hy with rfl | hy
    · exact Nat.le_refl _
    · exact (List.pairwise_cons.1 h).1 y hy
  | endStruct pos | endArray pos => exact nested_fold h
  | addField name start stop t cv =>
    obtain ⟨hn, hw⟩ := List.pairwise_cons.1 h
    exact List.pairwise_cons.2 ⟨fun y hy => Nat.le_succ_of_le (hn y hy), hw⟩
  | setPendingVariantTag tag => exact h

theorem nested_run {s : Builder} (h : s.Nested) (ops : List Op) : (run step s ops).Nested :=
  run_invariant step (P := Nested) (fun _ o h => nested_step h o) ops h

/-! ## The fuel of the resolution -/

/-- The children of each capture of `src` end before buffer index `n`. -/
def Below (n : Nat) (src : List FieldCapture) : Prop :=
  ∀ fc ∈ src, 0 < fc.childCount → fc.buildBufIndex + fc.childCount ≤ n

/-- Children lie before their container, in the buffer and in the captures still outside it. -/
def Layered (s : Builder) : Prop :=
  (∀ n, Below n s.childBuf[n]?.toList) ∧ Below s.childBuf.length s.fields

/-- **The fuel is enough**: once children only lie before their container, more fuel than the
captures reach back changes nothing. -/
theorem copyToArena_fuel {childBuf : List FieldCapture}
    (hbuf : ∀ n, Below n childBuf[n]?.toList) :
    ∀ {n m : Nat} {src : List FieldCapture}, Below n src → n ≤ m →
      copyToArena childBuf m src = copyToArena childBuf n src
  | 0, 0, _, _, _ => rfl
  | 0, m + 1, src, hsrc, _ => by
    refine List.map_congr_left fun fc hfc => if_neg fun h => ?_
    have := hsrc fc hfc h.2.1
    omega
  | n + 1, m + 1, src, hsrc, hnm => by
    refine List.map_congr_left fun fc hfc => ?_
    split
    · rename_i h
      have hend := hsrc fc hfc h.2.1
      refine congrArg (Resolved.mk _) (copyToArena_fuel hbuf (fun child hchild hcount => ?_)
        (Nat.le_of_succ_le_succ hnm))
      obtain ⟨i, hi⟩ := List.mem_iff_getElem?.1 hchild
      rw [List.getElem?_take] at hi
      split at hi
      · rw [List.getElem?_drop] at hi
        have := hbuf _ child (by rw [hi]; simp) hcount
        omega
      · cases hi
    · rfl

theorem layered_endScope {s : Builder} (h : s.Layered) (pos : Nat) : (s.endScope pos).Layered := by
  cases hs : s.scopes with
  | nil => simpa [endScope, hs] using h
  | cons scope rest =>
    obtain ⟨hbuf, hfields⟩ := h
    simp only [endScope, hs, Layered]
    by_cases hcount : s.childCount scope > 0
    · simp only [hcount, if_true]
      refine ⟨fun n fc hfc hpos => ?_, fun fc hfc hpos => ?_⟩
      · rw [List.getElem?_append] at hfc
        split at hfc
        · exact hbuf n fc hfc hpos
        · have hmem : fc ∈ s.fields := by
            rw [Option.mem_toList] at hfc
            exact List.mem_of_mem_drop (List.mem_of_getElem? hfc)
          have := hfields fc hmem hpos
          omega
      · rcases List.mem_append.1 hfc with hfc | hfc
        · have := hfields fc (List.mem_of_mem_take hfc) hpos
          rw [List.length_append]
          omega
        · obtain rfl := List.mem_singleton.1 hfc
          simp only [scopeCapture, hcount, if_true, List.length_append, List.length_drop]
          unfold childCount at hcount ⊢
          omega
    · simp only [hcount, if_false]
      refine ⟨hbuf, fun fc hfc hpos => ?_⟩
      rcases List.mem_append.1 hfc with hfc | hfc
      · exact hfields fc (List.mem_of_mem_take hfc) hpos
      · obtain rfl := List.mem_singleton.1 hfc
        exact absurd hpos hcount

/-- **Step lemma**: every call keeps children before their container, so the fuel of `finish` is
enough for every builder the interface can reach. -/
theorem layered_step {s : Builder} (h : s.Layered) (o : Op) : (s.step o).Layered := by
  have hbegin : ∀ name pos t tag, (s.beginScope name pos t tag).Layered := fun name pos t tag => by
    unfold beginScope
    split <;> exact h
  cases o with
  | beginStruct | beginArray | beginVariant => exact hbegin ..
  | endStruct pos | endArray pos => exact layered_endScope h pos
  | addField name start stop t cv =>
    refine ⟨h.1, fun fc hfc hpos => ?_⟩
    rcases List.mem_append.1 hfc with hfc | hfc
    · exact h.2 fc hfc hpos
    · obtain rfl := List.mem_singleton.1 hfc
      simp at hpos
  | setPendingVariantTag tag => exact h

/-- The index `finish` hands out does not depend on the fuel. -/
theorem finish_fuel {s : Builder} (h : s.Layered) {fuel : Nat} (hfuel : s.childBuf.length ≤ fuel) :
    copyToArena s.childBuf fuel s.fields = copyToArena s.childBuf s.childBuf.length s.fields :=
  copyToArena_fuel h.1 h.2 hfuel

/-! ## Calls that close no marked scope -/

/-- `s` is `b` with another pending tag and captures, buffer and `level` scopes added, the scopes
starting after the marked captures. -/
def Extends (b : Builder) (level : Nat) (tag : Int) (s : Builder) : Prop :=
  ∃ opened more buf, opened.length = level ∧
    (∀ scope ∈ opened, b.fields.length ≤ scope.firstChildIndex) ∧
    s = { fields := b.fields ++ more, scopes := opened ++ b.scopes
          childBuf := b.childBuf ++ buf, pendingVariantTag := tag }

theorem extends_self (b : Builder) : Extends b 0 b.pendingVariantTag b :=
  ⟨[], [], [], rfl, by simp, by simp⟩

theorem extends_beginScope {b s : Builder} {level : Nat} {tag : Int} (h : Extends b level tag s)
    (name : Option String) (pos : Nat) (t : CaptureType) (vt : Int) :
    Extends b (level + 1) (if vt ≠ -1 then tag else -1) (s.beginScope name pos t vt) := by
  obtain ⟨opened, more, buf, hlen, hfirst, rfl⟩ := h
  by_cases hvt : vt = -1
  · refine ⟨⟨name, pos, (b.fields ++ more).length, t, tag⟩ :: opened, more, buf, by simp [hlen],
      ?_, by simp [beginScope, hvt]⟩
    simpa using hfirst
  · refine ⟨⟨name, pos, (b.fields ++ more).length, t, vt⟩ :: opened, more, buf, by simp [hlen],
      ?_, by simp [beginScope, hvt]⟩
    simpa using hfirst

theorem extends_endScope {b s : Builder} {level : Nat} {tag : Int}
    (h : Extends b (level + 1) tag s) (pos : Nat) : Extends b level tag (s.endScope pos) := by
  obtain ⟨opened, more, buf, hlen, hfirst, rfl⟩ := h
  match opened, hlen, hfirst with
  | scope :: opened, hlen, hfirst =>
    have hge : b.fields.length ≤ scope.firstChildIndex := hfirst scope (by simp)
    let now : Builder :=
      { fields := b.fields ++ more, scopes := scope :: opened ++ b.scopes
        childBuf := b.childBuf ++ buf, pendingVariantTag := tag }
    refine ⟨opened, more.take (scope.firstChildIndex - b.fields.length) ++
        [now.scopeCapture scope pos],
      if now.childCount scope > 0 then buf ++ now.fields.drop scope.firstChildIndex else buf,
      Nat.succ.inj hlen, fun s hs => hfirst s (by simp [hs]), ?_⟩
    simp only [endScope, List.cons_append, Builder.mk.injEq, true_and, and_true]
    refine ⟨?_, ?_⟩
    · rw [List.take_append, List.take_of_length_le hge, List.append_assoc]
      rfl
    · show (if now.childCount scope > 0 then _ else _) = _
      split <;> simp [now]

/-- **Step lemma**: a call that closes no marked scope keeps the marked part and does to the
pending tag what `tagStep` says. -/
theorem extends_step {b s : Builder} {level level' : Nat} {tag tag' : Int} {o : Op}
    (h : Extends b level tag s)
    (hstep : tagStep b.scopes.length level tag o = some (level', tag')) :
    Extends b level' tag' (s.step o) := by
  cases o with
  | beginStruct name pos | beginArray name pos =>
    cases hstep
    exact extends_beginScope h name pos _ (-1)
  | beginVariant name pos vt =>
    cases hstep
    exact extends_beginScope h name pos _ vt
  | endStruct pos | endArray pos =>
    cases level with
    | succ n =>
      cases hstep
      exact extends_endScope h pos
    | zero =>
      obtain ⟨opened, more, buf, hlen, hfirst, rfl⟩ := h
      obtain rfl : opened = [] := List.length_eq_zero_iff.1 hlen
      match hscopes : b.scopes with
      | [] =>
        simp only [hscopes, tagStep, List.length_nil, Option.some.injEq, Prod.mk.injEq] at hstep
        obtain ⟨rfl, rfl⟩ := hstep
        exact ⟨[], more, buf, rfl, by simp, by simp [step, endScope, hscopes]⟩
      | scope :: rest => simp [hscopes, tagStep] at hstep
  | addField name start stop t cv =>
    cases hstep
    obtain ⟨opened, more, buf, hlen, hfirst, rfl⟩ := h
    exact ⟨opened, more ++ [_], buf, hlen, hfirst, by simp [step, addField]; rfl⟩
  | setPendingVariantTag t =>
    cases hstep
    obtain ⟨opened, more, buf, hlen, hfirst, rfl⟩ := h
    exact ⟨opened, more, buf, hlen, hfirst, rfl⟩

/-- **Run lemma**: so does a whole sequence. -/
theorem extends_run {b : Builder} :
    ∀ {s : Builder} {level level' : Nat} {tag tag' : Int} (ops : List Op), Extends b level tag s →
      tagEffect b.scopes.length level tag ops = some (level', tag') →
      Extends b level' tag' (run step s ops)
  | _, _, _, _, _, [], h, he => by
    cases he
    exact h
  | _, level, _, tag, _, o :: ops, h, he => by
    cases hstep : tagStep b.scopes.length level tag o with
    | none => simp [tagEffect, hstep] at he
    | some p =>
      simp only [tagEffect, hstep] at he
      exact extends_run ops (extends_step h hstep) he

/-- **Restoring** takes back everything but the pending tag. -/
theorem restore_extends {b s : Builder} {level : Nat} {tag : Int} (h : Extends b level tag s) :
    s.restore b.mark = { b with pendingVariantTag := tag } := by
  obtain ⟨opened, more, buf, hlen, hfirst, rfl⟩ := h
  simp [restore, mark]

/-! ## Calls that close a marked scope -/

/-- Some scope open at the mark has been replaced by one that starts later, or has become a
capture itself; what encloses it is as it was. -/
def Overfull (marked now : List Nat) : Prop :=
  ∃ above k outer above' k', marked = above ++ k :: outer ∧ now = above' ++ k' :: outer ∧
    above ≠ [] ∧ k < k'

/-- No later call undoes that. -/
theorem overfull_step {marked now : List Nat} (hmarked : marked.Pairwise fun x y => y ≤ x)
    (hnow : now.Pairwise fun x y => y ≤ x) (h : Overfull marked now) (o : Op) :
    Overfull marked (heightsAfter o now) := by
  obtain ⟨above, k, outer, above', k', rfl, rfl, hne, hlt⟩ := h
  have hpush : ∀ above', Overfull (above ++ k :: outer) (above' ++ k' :: outer) := fun above' =>
    ⟨above, k, outer, above', k', rfl, rfl, hne, hlt⟩
  have hbump : Overfull (above ++ k :: outer) ((k' + 1) :: outer) :=
    ⟨above, k, outer, [], k' + 1, rfl, rfl, hne, by omega⟩
  have hfold : Overfull (above ++ k :: outer) (fold (above' ++ k' :: outer)) := by
    match above', outer with
    | [], [] => exact hpush []
    | [], j :: outer =>
      -- the late scope itself is closed: its parent gets a capture past its own start
      have hj : j ≤ k := by
        have := (List.pairwise_append.1 hmarked).2.1
        exact (List.pairwise_cons.1 this).1 j (by simp)
      refine ⟨above ++ [k], j, outer, [], min j k' + 1, by simp, rfl, by simp, ?_⟩
      omega
    | [n], outer =>
      have hn : k' ≤ n := (List.pairwise_cons.1 hnow).1 k' (by simp)
      simp only [List.singleton_append, fold, Nat.min_eq_left hn]
      exact hbump
    | n :: f :: above', outer => exact hpush ((min f n + 1) :: above')
  cases o with
  | beginStruct | beginArray | beginVariant =>
    cases above' with
    | nil => exact hpush [k']
    | cons n above' => exact hpush (n :: n :: above')
  | endStruct pos | endArray pos => exact hfold
  | addField =>
    cases above' with
    | nil => exact hbump
    | cons n above' => exact hpush ((n + 1) :: above')
  | setPendingVariantTag => exact hpush above'

theorem overfull_run {b s : Builder} (hb : b.Nested) (hs : s.Nested) (ops : List Op)
    (h : Overfull b.heights s.heights) : Overfull b.heights (run step s ops).heights :=
  (run_invariant step (P := fun s => s.Nested ∧ Overfull b.heights s.heights)
    (fun s o h => ⟨nested_step h.1 o, by rw [heights_step]; exact overfull_step hb h.1 h.2 o⟩)
    ops ⟨hs, h⟩).2

theorem tagStep_eq_none {marked level : Nat} {tag : Int} {o : Op}
    (h : tagStep marked level tag o = none) :
    level = 0 ∧ marked ≠ 0 ∧ heightsAfter o = fold := by
  cases o with
  | endStruct pos | endArray pos =>
    match level, marked with
    | _ + 1, _ => simp [tagStep] at h
    | 0, 0 => simp [tagStep] at h
    | 0, _ + 1 => exact ⟨rfl, by simp, rfl⟩
  | _ => simp [tagStep] at h

/-- A sequence that closes a marked scope leaves the builder overfull. -/
theorem overfull_of_effect {b : Builder} (hb : b.Nested) :
    ∀ {level : Nat} {tag : Int} {s : Builder} (ops : List Op), s.Nested → Extends b level tag s →
      tagEffect b.scopes.length level tag ops = none → Overfull b.heights (run step s ops).heights
  | level, tag, s, o :: ops, hs, h, he => by
    cases hstep : tagStep b.scopes.length level tag o with
    | some p =>
      simp only [tagEffect, hstep] at he
      exact overfull_of_effect hb ops (nested_step hs o) (extends_step h hstep) he
    | none =>
      -- `o` closes the innermost marked scope
      refine overfull_run hb (nested_step hs o) ops ?_
      obtain ⟨rfl, hopen, hfold⟩ := tagStep_eq_none hstep
      obtain ⟨opened, more, buf, hlen, hfirst, rfl⟩ := h
      obtain rfl : opened = [] := List.length_eq_zero_iff.1 hlen
      rw [heights_step, hfold]
      match hscopes : b.scopes with
      | [] => simp [hscopes] at hopen
      | scope :: rest =>
        have hge : scope.firstChildIndex ≤ b.fields.length := by
          have hn := (List.pairwise_cons.1 hb).1
          exact hn _ (by simp [hscopes])
        refine ⟨[b.fields.length], scope.firstChildIndex, rest.map Scope.firstChildIndex, [],
          scope.firstChildIndex + 1, by simp [heights, hscopes], ?_, by simp, by omega⟩
        simp only [heights, List.nil_append, List.map_cons, fold, List.length_append]
        rw [Nat.min_eq_left (by omega)]

/-! ## What `finish` shows of a builder -/

/-- Builders nobody can tell apart have equally many captures at top level. -/
theorem Same.fields_length {s t : Builder} (h : Same s t) : s.fields.length = t.fields.length := by
  have h0 := h 0 []
  simp only [run_nil, finish] at h0
  cases hs : s.fields with
  | nil =>
    cases ht : t.fields with
    | nil => rfl
    | cons => simp [hs, ht] at h0
  | cons =>
    cases ht : t.fields with
    | nil => simp [hs, ht] at h0
    | cons =>
      simp only [hs, ht, List.isEmpty_cons, Bool.false_eq_true, if_false, Option.some.injEq,
        Resolved.mk.injEq, FieldCapture.mk.injEq] at h0
      exact Int.ofNat.inj h0.1.2.2.2.2.1

theorem Same.run {s t : Builder} (h : Same s t) (ops : List Op) :
    Same (Lib.run step s ops) (Lib.run step t ops) :=
  fun pos => Indist.run (h pos) ops

def leafOp : Op := .addField none 0 0 .uInt8 none

theorem heights_run_leaf (s : Builder) :
    ∀ n : Nat, (Lib.run step s (List.replicate n leafOp)).heights =
      (s.fields.length + n) :: s.scopes.map Scope.firstChildIndex
  | 0 => rfl
  | n + 1 => by
    rw [List.replicate_succ', run_append, run_cons, run_nil, heights_step, heights_run_leaf s n]
    rfl

theorem heights_run_end :
    ∀ (n : Nat) (s : Builder),
      (Lib.run step s (List.replicate n (.endStruct 0))).heights = fold^[n] s.heights
  | 0, _ => rfl
  | n + 1, s => by
    rw [List.replicate_succ, run_cons, heights_run_end n, heights_step]
    rfl

theorem fold_iterate_append (outer : List Nat) :
    ∀ (above : List Nat) (n : Nat), ∃ n', fold^[above.length] (n :: (above ++ outer)) = n' :: outer
  | [], n => ⟨n, rfl⟩
  | _ :: above, _ => fold_iterate_append outer above _

theorem fold_iterate_singleton (n : Nat) : ∀ k : Nat, fold^[k] [n] = [n]
  | 0 => rfl
  | k + 1 => fold_iterate_singleton n k

theorem nested_fold_iterate {w : List Nat} (h : w.Pairwise fun x y => y ≤ x) :
    ∀ k : Nat, (fold^[k] w).Pairwise fun x y => y ≤ x
  | 0 => h
  | k + 1 => by
    rw [Function.iterate_succ_apply']
    exact nested_fold (nested_fold_iterate h k)

/-- Closing every scope leaves one capture for the outermost, right after what preceded it. -/
theorem fold_iterate_all (above : List Nat) {f k : Nat} (hk : above.length < k) (n : Nat) :
    ∃ m, m ≤ f + 1 ∧ fold^[k] (n :: (above ++ [f])) = [m] := by
  obtain ⟨j, rfl⟩ := Nat.exists_eq_add_of_lt hk
  obtain ⟨n', hn'⟩ := fold_iterate_append [f] above n
  refine ⟨min f n' + 1, by omega, ?_⟩
  rw [show above.length + j + 1 = j + 1 + above.length by omega, Function.iterate_add_apply, hn',
    Function.iterate_succ_apply]
  exact fold_iterate_singleton _ j

theorem fields_length_of_heights {s : Builder} {n : Nat} {w : List Nat} (h : s.heights = n :: w) :
    s.fields.length = n := (List.cons.inj h).1

/-- Builders nobody can tell apart have equally many scopes open. Once as many are closed as the
shallower one has, captures pile up at its top level, where the other still folds them away. -/
theorem Same.depth_le {s t : Builder} (h : Same s t) : t.scopes.length ≤ s.scopes.length := by
  by_contra hlt
  have hne : t.scopes.map Scope.firstChildIndex ≠ [] := fun hnil => by
    have := congrArg List.length hnil
    simp only [List.length_map, List.length_nil] at this
    omega
  obtain ⟨above, f, houter⟩ := (List.eq_nil_or_concat' _).resolve_left hne
  have habove : above.length + 1 = t.scopes.length := by
    simpa using (congrArg List.length houter).symm
  -- the scopes of `t` that survive closing as many as `s` has
  have hsplit : above = above.take s.scopes.length ++ above.drop s.scopes.length :=
    (List.take_append_drop _ _).symm
  have htake : (above.take s.scopes.length).length = s.scopes.length := by
    rw [List.length_take]
    omega
  let shut : List Op := List.replicate s.scopes.length (.endStruct 0)
  have hs1 : ∃ n, (Lib.run step s shut).heights = [n] := by
    obtain ⟨n, hn⟩ := fold_iterate_append [] (s.scopes.map Scope.firstChildIndex) s.fields.length
    refine ⟨n, ?_⟩
    rw [heights_run_end, ← hn, List.length_map, List.append_nil]
    rfl
  have ht1 : ∃ n, (Lib.run step t shut).heights = n :: (above.drop s.scopes.length ++ [f]) := by
    obtain ⟨n, hn⟩ := fold_iterate_append (above.drop s.scopes.length ++ [f])
      (above.take s.scopes.length) t.fields.length
    refine ⟨n, ?_⟩
    rw [heights_run_end, ← hn, htake, ← List.append_assoc, ← hsplit, ← houter]
    rfl
  obtain ⟨n, hn⟩ := hs1
  obtain ⟨n', hn'⟩ := ht1
  let rest : List Op := List.replicate t.scopes.length (.endStruct 0)
  have hlen := (((h.run shut).run (List.replicate (f + 2) leafOp)).run rest).fields_length
  have hs2 : (Lib.run step (Lib.run step (Lib.run step s shut)
      (List.replicate (f + 2) leafOp)) rest).heights = [n + (f + 2)] := by
    rw [heights_run_end, heights_run_leaf, (List.cons.inj hn).1, (List.cons.inj hn).2]
    exact fold_iterate_singleton _ _
  obtain ⟨m, hm, ht2⟩ := fold_iterate_all (above.drop s.scopes.length) (f := f)
    (k := t.scopes.length) (by rw [List.length_drop]; omega) (n' + (f + 2))
  have ht3 : (Lib.run step (Lib.run step (Lib.run step t shut)
      (List.replicate (f + 2) leafOp)) rest).heights = [m] := by
    rw [heights_run_end, heights_run_leaf, (List.cons.inj hn').1, (List.cons.inj hn').2, ht2]
  rw [fields_length_of_heights hs2, fields_length_of_heights ht3] at hlen
  omega

/-- Nor are they apart in where a scope starts: closed down to that scope after enough captures,
the earlier start leaves fewer. -/
theorem Same.not_later {s t : Builder} (h : Same s t) {above above' outer : List Nat} {k k' : Nat}
    (hs : s.scopes.map Scope.firstChildIndex = above ++ k :: outer)
    (ht : t.scopes.map Scope.firstChildIndex = above' ++ k' :: outer)
    (hlen : above.length = above'.length)
    (hnested : (t.scopes.map Scope.firstChildIndex).Pairwise fun x y => y ≤ x) : k' ≤ k := by
  by_contra hlt
  -- enough captures for `t`'s scopes to be nested again
  obtain ⟨n, hn⟩ : ∃ n, ∀ y ∈ above' ++ k' :: outer, y ≤ n := by
    cases above' with
    | nil =>
      rw [ht] at hnested
      exact ⟨k', fun y hy => (List.mem_cons.1 hy).elim (fun e => Nat.le_of_eq e)
        ((List.pairwise_cons.1 hnested).1 y)⟩
    | cons a above' =>
      rw [ht] at hnested
      exact ⟨a, fun y hy => (List.mem_cons.1 hy).elim (fun e => Nat.le_of_eq e)
        ((List.pairwise_cons.1 hnested).1 y)⟩
  have hpile := ((h.run (List.replicate n leafOp)).run
    (List.replicate (above.length + 1) (.endStruct 0))).fields_length
  obtain ⟨m, hm⟩ := fold_iterate_append (k :: outer) above (s.fields.length + n)
  obtain ⟨m', hm'⟩ := fold_iterate_append (k' :: outer) above' (t.fields.length + n)
  have hpile_s : (Lib.run step (Lib.run step s (List.replicate n leafOp))
      (List.replicate (above.length + 1) (.endStruct 0))).heights = (min k m + 1) :: outer := by
    rw [heights_run_end, heights_run_leaf, hs, Function.iterate_succ_apply', hm]
    rfl
  have hpile_t : (Lib.run step (Lib.run step t (List.replicate n leafOp))
      (List.replicate (above.length + 1) (.endStruct 0))).heights = (min k' m' + 1) :: outer := by
    rw [heights_run_end, heights_run_leaf, ht, hlen, Function.iterate_succ_apply', hm']
    rfl
  have hm'_nested : (m' :: k' :: outer).Pairwise fun x y => y ≤ x := by
    rw [← hm']
    refine nested_fold_iterate (List.pairwise_cons.2 ⟨fun y hy => ?_, ht ▸ hnested⟩) _
    exact Nat.le_trans (hn y hy) (Nat.le_add_left _ _)
  have hge : k' ≤ m' := (List.pairwise_cons.1 hm'_nested).1 k' (by simp)
  rw [fields_length_of_heights hpile_s, fields_length_of_heights hpile_t] at hpile
  omega

theorem copyToArena_leaf (childBuf : List FieldCapture) (fuel : Nat) (fs : List FieldCapture)
    {fc : FieldCapture} (h : fc.type = .uInt8) :
    copyToArena childBuf fuel (fs ++ [fc]) = copyToArena childBuf fuel fs ++ [.mk fc []] := by
  cases fuel <;> simp [copyToArena, h]

theorem Same.tag_eq {b : Builder} {x y : Int}
    (h : Same { b with pendingVariantTag := x } { b with pendingVariantTag := y }) : x = y := by
  have hleaf := h 0 [leafOp]
  simp [step, leafOp, addField, finish, copyToArena_leaf] at hleaf
  exact hleaf

/-! ## Exactly when a restore is a rollback -/

/-- A restore to the mark does not hide an overfull builder. -/
theorem not_same_of_overfull {b s : Builder} (hs : s.Nested) (h : Overfull b.heights s.heights) :
    ¬ Same (s.restore b.mark) b := by
  intro hsame
  have hdepth : (s.restore b.mark).scopes.length = b.scopes.length :=
    Nat.le_antisymm (Same.depth_le fun pos ops => (hsame pos ops).symm) hsame.depth_le
  obtain ⟨above, k, outer, above', k', hb, hnow, hne, hlt⟩ := h
  obtain ⟨x, above, rfl⟩ := List.exists_cons_of_ne_nil hne
  have hb' : b.scopes.map Scope.firstChildIndex = above ++ k :: outer := (List.cons.inj hb).2
  -- the scopes the restore keeps, which still hold the late one
  have hkept : (s.restore b.mark).scopes.map Scope.firstChildIndex =
      (s.scopes.map Scope.firstChildIndex).drop (s.scopes.length - b.scopes.length) := by
    simp [restore, mark, List.map_drop]
  have hlenb : b.scopes.length = above.length + 1 + outer.length := by
    have := congrArg List.length hb'
    simp only [List.length_map, List.length_append, List.length_cons] at this
    omega
  have hlens : s.scopes.length + 1 = above'.length + 1 + outer.length := by
    have := congrArg List.length hnow
    simp only [heights, List.length_map, List.length_append, List.length_cons] at this
    omega
  have hdeep : b.scopes.length ≤ s.scopes.length := by
    have : (s.restore b.mark).scopes.length = s.scopes.length - (s.scopes.length - b.scopes.length) := by
      simp [restore, mark]
    omega
  obtain ⟨y, above', rfl⟩ := List.exists_cons_of_length_pos (l := above')
    (by omega)
  have hs' : s.scopes.map Scope.firstChildIndex = above' ++ k' :: outer := (List.cons.inj hnow).2
  simp only [List.length_cons] at hlens
  have hsplit : (s.restore b.mark).scopes.map Scope.firstChildIndex =
      above'.drop (s.scopes.length - b.scopes.length) ++ k' :: outer := by
    rw [hkept, hs', List.drop_append_of_le_length (by omega)]
  have hnested : ((s.restore b.mark).scopes.map Scope.firstChildIndex).Pairwise
      fun x y => y ≤ x := by
    rw [hkept]
    exact (List.pairwise_cons.1 hs).2.sublist (List.drop_sublist _ _)
  have hle := Same.not_later (fun pos ops => (hsame pos ops).symm) hb' hsplit
    (by rw [List.length_drop]; omega) hnested
  omega

/-- **Rollback**: after any calls, the restored builder is the marked one for whatever follows,
exactly when the calls close no scope open at the mark and leave the pending tag as it was. -/
theorem same_restore_iff {b : Builder} (hb : b.Nested) (ops : List Op) :
    Same ((Lib.run step b ops).restore b.mark) b ↔ b.Covered ops := by
  constructor
  · intro h
    cases he : tagEffect b.scopes.length 0 b.pendingVariantTag ops with
    | none =>
      exact absurd h (not_same_of_overfull (nested_run hb ops)
        (overfull_of_effect hb ops hb (extends_self b) he))
    | some p =>
      rw [restore_extends (extends_run ops (extends_self b) he)] at h
      simp [Covered, he, h.tag_eq (y := b.pendingVariantTag)]
  · intro h
    obtain ⟨⟨level, tag⟩, he, rfl⟩ := Option.map_eq_some_iff.1 h
    rw [restore_extends (extends_run ops (extends_self b) he)]
    exact fun _ => Indist.of_eq rfl

end Builder

end Bbq.Lite
