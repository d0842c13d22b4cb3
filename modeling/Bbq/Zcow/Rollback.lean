import Mathlib.Data.List.Forall2
import Bbq.Zcow.Builder

/-!
# What a mark covers of `zcow::builder`

`mark` records two lengths and `restore` truncates to them (`CaptureCow.h:1226-1233`). The builder
keeps more than that: the pending tag, the pending count field, and the annotations written on a
scope that was open already or on the wrapper `finish` makes. `Uncovered` collects those, `effect`
follows a sequence of calls on them alone.

Results:
* `rebased_run`: what a sequence of calls that closes no marked scope leaves behind, and
  `restore_rebased`: what of it the restore takes back.
* `overfull_run`: a sequence that does close a marked scope leaves a node in an enclosing scope,
  which no later call and no restore removes.
* **`same_restore_iff`**: the restored builder is the marked one, for every later sequence of
  calls, exactly when the calls close no marked scope and leave the uncovered cells as they were.
-/

namespace Bbq.Zcow

open Bbq.Lib

/-- The annotations a parser writes on a scope while it is open. -/
structure Annot where
  derives : Derives
  determines : Option String
  bitsContainer : Bool
  bitsMsbFirst : Bool
  deriving DecidableEq, Repr

def Cell.annot (c : Cell) : Annot :=
  ⟨c.derives, c.determines, c.bitsContainer, c.bitsMsbFirst⟩

def Cell.setAnnot (c : Cell) (a : Annot) : Cell :=
  { c with
    derives := a.derives, determines := a.determines
    bitsContainer := a.bitsContainer, bitsMsbFirst := a.bitsMsbFirst }

@[simp] theorem Cell.annot_setAnnot (c : Cell) (a : Annot) : (c.setAnnot a).annot = a := rfl
@[simp] theorem Cell.setAnnot_annot (c : Cell) : c.setAnnot c.annot = c := rfl

/-- The state of a builder that a mark taken now says nothing about. -/
structure Uncovered where
  tag : Int
  count : Option String
  /-- The innermost open scope's annotations; `none` when no scope is open. -/
  scope : Option Annot
  root : Annot
  deriving DecidableEq, Repr

/-- `scope_determines_rest`, on the annotations. -/
def Annot.rest (a : Annot) (sizeField : Option String) : Annot :=
  { a with derives := .hasRestSize, determines := sizeField }

/-- `scope_is_bits_run`, on the annotations. -/
def Annot.bitsRun (a : Annot) (msbFirst : Bool) : Annot :=
  { a with bitsContainer := true, bitsMsbFirst := msbFirst }

/-- Write on the innermost scope if `level` scopes were opened since the mark: only at level 0 is
that scope (or the wrapper) one the mark leaves standing. -/
def Uncovered.annotate (u : Uncovered) (level : Nat) (f : Annot → Annot) : Uncovered :=
  match level, u.scope with
  | 0, none => { u with root := f u.root }
  | 0, some a => { u with scope := some (f a) }
  | _ + 1, _ => u

/-- One call, on the uncovered cells and the number of scopes opened since the mark. `none` when
it closes a scope that was open at the mark; at top level there is none to close. -/
def Uncovered.step (level : Nat) (u : Uncovered) : Op → Option (Nat × Uncovered)
  | .beginStruct _ _ => some (level + 1, { u with tag := -1 })
  | .beginArray _ _ => some (level + 1, { u with tag := -1, count := none })
  | .beginVariant _ _ _ => some (level + 1, u)
  | .endStruct _ | .endArray _ =>
    match level, u.scope with
    | n + 1, _ => some (n, u)
    | 0, none => some (0, u)
    | 0, some _ => none
  | .addField .. => some (level, { u with tag := -1 })
  | .setPendingVariantTag t => some (level, { u with tag := t })
  | .setPendingCountField p => some (level, { u with count := p })
  | .rootDetermines d n => some (level, { u with root := { u.root with derives := d, determines := n } })
  | .scopeDeterminesRest f => some (level, u.annotate level (·.rest f))
  | .scopeIsBitsRun m => some (level, u.annotate level (·.bitsRun m))

/-- A sequence of calls on the uncovered cells; `none` once a marked scope is closed. -/
def Uncovered.effect : Nat → Uncovered → List Op → Option (Nat × Uncovered)
  | level, u, [] => some (level, u)
  | level, u, o :: ops =>
    match u.step level o with
    | none => none
    | some (level', u') => Uncovered.effect level' u' ops

namespace Builder

def rootAnnot (b : Builder) : Annot :=
  ⟨b.rootDerives, b.rootDetermines, b.rootBits, b.rootBitsMsbFirst⟩

def uncovered (b : Builder) : Uncovered :=
  { tag := b.pendingVariantTag, count := b.pendingCountField
    scope := b.stack.head?.map fun n => n.cell.annot
    root := b.rootAnnot }

/-- **The condition**: the calls close no scope that was open at the mark, and leave the pending
tag, the pending count field and the annotations of the marked scope and of the wrapper as they
were. -/
def Covered (b : Builder) (ops : List Op) : Prop :=
  (Uncovered.effect 0 b.uncovered ops).map Prod.snd = some b.uncovered

instance (b : Builder) (ops : List Op) : Decidable (b.Covered ops) :=
  inferInstanceAs (Decidable (_ = _))

/-! ## Calls that close no marked scope -/

/-- `b` with other uncovered cells and `more` nodes after the marked ones. -/
def rebase (b : Builder) (u : Uncovered) (more : List Node) : Builder :=
  { stack :=
      match b.stack, u.scope with
      | n :: rest, some a => .mk (n.cell.setAnnot a) (n.kids ++ more) :: rest
      | stack, _ => stack
    roots := if u.scope.isNone then b.roots ++ more else b.roots
    pendingVariantTag := u.tag
    pendingCountField := u.count
    rootDerives := u.root.derives
    rootDetermines := u.root.determines
    rootBits := u.root.bitsContainer
    rootBitsMsbFirst := u.root.bitsMsbFirst }

/-- `s` is `b` rebased, with `level` scopes open above the marked ones. -/
def Rebased (b : Builder) (level : Nat) (u : Uncovered) (s : Builder) : Prop :=
  u.scope.isNone = b.stack.isEmpty ∧
    ∃ opened more, opened.length = level ∧
      s = { b.rebase u more with stack := opened ++ (b.rebase u more).stack }

theorem scope_of_cons {b : Builder} {u : Uncovered} (hu : u.scope.isNone = b.stack.isEmpty)
    {n : Node} {rest : List Node} (hstack : b.stack = n :: rest) : ∃ a, u.scope = some a :=
  Option.ne_none_iff_exists'.1 fun hnone => by simp [hstack, hnone] at hu

/-- Attaching to the innermost marked scope adds to the nodes after the marked ones. -/
theorem attach_rebase {b : Builder} {u : Uncovered} (hu : u.scope.isNone = b.stack.isEmpty)
    (more : List Node) (n : Node) : (b.rebase u more).attach n = b.rebase u (more ++ [n]) := by
  cases hstack : b.stack with
  | nil =>
    have hscope : u.scope = none := by simpa [hstack] using hu
    simp [attach, setCurrent, current, rebase, hstack, hscope]
  | cons m rest =>
    obtain ⟨a, hscope⟩ := scope_of_cons hu hstack
    simp [attach, setCurrent, current, rebase, hstack, hscope]

theorem attach_opened (s : Builder) (n m : Node) (rest : List Node) (h : s.stack = n :: rest) :
    s.attach m = { s with stack := .mk n.cell (n.kids ++ [m]) :: rest } := by
  simp [attach, setCurrent, current, h]

theorem rebased_close {b : Builder} {level : Nat} {u : Uncovered} {s : Builder}
    (h : Rebased b (level + 1) u s) (pos : Nat) : Rebased b level u (s.closeScope pos) := by
  obtain ⟨hu, opened, more, hlen, rfl⟩ := h
  match opened, hlen with
  | [n], hlen =>
    -- the last scope opened since the mark: it joins the marked ones
    refine ⟨hu, [], more ++ [.mk { n.cell with endOffset := pos } n.kids], (Nat.succ.inj hlen).symm ▸ rfl, ?_⟩
    rw [← attach_rebase hu]
    rfl
  | n :: n' :: opened, hlen =>
    refine ⟨hu, .mk n'.cell (n'.kids ++ [.mk { n.cell with endOffset := pos } n.kids]) :: opened,
      more, by simpa using hlen, ?_⟩
    exact attach_opened _ n' _ (opened ++ (b.rebase u more).stack) rfl

/-- A node attached since the mark, under a builder whose other state is `s`'s. -/
theorem rebased_attach {b : Builder} {level : Nat} {u : Uncovered} {s : Builder}
    (h : Rebased b level u s) (n : Node) : Rebased b level u (s.attach n) := by
  obtain ⟨hu, opened, more, hlen, rfl⟩ := h
  cases opened with
  | nil =>
    refine ⟨hu, [], more ++ [n], hlen, ?_⟩
    rw [← attach_rebase hu]
    rfl
  | cons m opened =>
    refine ⟨hu, .mk m.cell (m.kids ++ [n]) :: opened, more, hlen, ?_⟩
    exact attach_opened _ m _ (opened ++ (b.rebase u more).stack) rfl

/-- Writing on the innermost scope: `f` on its cell does to the annotations what `g` does. -/
theorem rebased_annotate {b : Builder} {level : Nat} {u : Uncovered} {s s' : Builder}
    {f : Cell → Cell} {g : Annot → Annot} (h : Rebased b level u s)
    (hfg : ∀ (c : Cell) (a : Annot), f (c.setAnnot a) = c.setAnnot (g a))
    (hroot : s.stack = [] → s' =
      { s with
        rootDerives := (g s.rootAnnot).derives, rootDetermines := (g s.rootAnnot).determines
        rootBits := (g s.rootAnnot).bitsContainer
        rootBitsMsbFirst := (g s.rootAnnot).bitsMsbFirst })
    (hscope : s.stack ≠ [] → s' = s.modifyScope f) :
    Rebased b level (u.annotate level g) s' := by
  obtain ⟨hu, opened, more, hlen, rfl⟩ := h
  cases opened with
  | nil =>
    obtain rfl : level = 0 := by simpa using hlen.symm
    cases hstack : b.stack with
    | nil =>
      have hnone : u.scope = none := by simpa [hstack] using hu
      refine ⟨by simp [Uncovered.annotate, hnone, hstack], [], more, rfl, ?_⟩
      rw [hroot (by simp [rebase, hstack])]
      simp [Uncovered.annotate, rebase, hstack, hnone, rootAnnot]
    | cons m rest =>
      obtain ⟨a, hsome⟩ := scope_of_cons hu hstack
      refine ⟨by simp [Uncovered.annotate, hsome, hstack], [], more, rfl, ?_⟩
      rw [hscope (by simp [rebase, hstack, hsome])]
      simp [Uncovered.annotate, rebase, hstack, hsome, modifyScope, hfg]
  | cons m opened =>
    obtain ⟨n, rfl⟩ : ∃ n, level = n + 1 := ⟨opened.length, by simpa using hlen.symm⟩
    refine ⟨hu, .mk (f m.cell) m.kids :: opened, more, by simpa using hlen, ?_⟩
    rw [hscope (by simp)]
    rfl

theorem rebased_tag {b : Builder} {level : Nat} {u : Uncovered} {s : Builder}
    (h : Rebased b level u s) (tag : Int) :
    Rebased b level { u with tag := tag } (s.setPendingVariantTag tag) := by
  obtain ⟨hu, opened, more, hlen, rfl⟩ := h
  exact ⟨hu, opened, more, hlen, rfl⟩

theorem rebased_count {b : Builder} {level : Nat} {u : Uncovered} {s : Builder}
    (h : Rebased b level u s) (path : Option String) :
    Rebased b level { u with count := path } (s.setPendingCountField path) := by
  obtain ⟨hu, opened, more, hlen, rfl⟩ := h
  exact ⟨hu, opened, more, hlen, rfl⟩

theorem rebased_open {b : Builder} {level : Nat} {u : Uncovered} {s : Builder}
    (h : Rebased b level u s) (n : Node) :
    Rebased b (level + 1) u { s with stack := n :: s.stack } := by
  obtain ⟨hu, opened, more, hlen, rfl⟩ := h
  exact ⟨hu, n :: opened, more, by simp [hlen], rfl⟩

/-- **Step lemma**: a call that closes no marked scope keeps the marked part, and does to the
uncovered cells what `Uncovered.step` says. -/
theorem rebased_step {b : Builder} {level level' : Nat} {u u' : Uncovered} {s : Builder} {o : Op}
    (h : Rebased b level u s) (hstep : u.step level o = some (level', u')) :
    Rebased b level' u' (s.step o) := by
  cases o with
  | beginStruct name pos =>
    cases hstep
    exact rebased_open (rebased_tag h (-1)) _
  | beginArray name pos =>
    cases hstep
    have hopen := rebased_count (rebased_tag h (-1)) none
    cases hcount : s.pendingCountField with
    | none =>
      have e : (s.setPendingVariantTag (-1)).setPendingCountField none =
          s.clearPendingTag := by
        rw [← hcount]
        rfl
      rw [e] at hopen
      simp only [step, beginArray, hcount]
      exact rebased_open hopen _
    | some path =>
      simp only [step, beginArray, hcount]
      exact rebased_open hopen _
  | beginVariant name pos tag =>
    cases hstep
    exact rebased_open h _
  | endStruct pos | endArray pos =>
    cases level with
    | succ n =>
      cases hstep
      exact rebased_close h pos
    | zero =>
      cases hscope : u.scope with
      | some a => simp [Uncovered.step, hscope] at hstep
      | none =>
        simp only [Uncovered.step, hscope, Option.some.injEq, Prod.mk.injEq] at hstep
        obtain ⟨rfl, rfl⟩ := hstep
        obtain ⟨hu, opened, more, hlen, rfl⟩ := h
        have hstack : b.stack = [] := by simpa [hscope] using hu.symm
        obtain rfl : opened = [] := List.length_eq_zero_iff.1 hlen
        refine ⟨hu, [], more, rfl, ?_⟩
        simp [step, closeScope, rebase, hstack]
  | addField name start stop t v enc bits =>
    cases hstep
    exact rebased_attach (rebased_tag h (-1)) _
  | setPendingVariantTag tag =>
    cases hstep
    exact rebased_tag h tag
  | setPendingCountField path =>
    cases hstep
    exact rebased_count h path
  | rootDetermines d name =>
    cases hstep
    obtain ⟨hu, opened, more, hlen, rfl⟩ := h
    exact ⟨hu, opened, more, hlen, rfl⟩
  | scopeDeterminesRest f =>
    cases hstep
    refine rebased_annotate h (f := fun c => { c with derives := .hasRestSize, determines := f })
      (fun _ _ => rfl) (fun hs => ?_) (fun hs => ?_)
    · simp [step, scopeDeterminesRest, hs, setRootDetermines, rootAnnot, Annot.rest]
    · cases hst : s.stack with
      | nil => exact absurd hst hs
      | cons n rest => simp [step, scopeDeterminesRest, hst]
  | scopeIsBitsRun m =>
    cases hstep
    refine rebased_annotate h (f := fun c => { c with bitsContainer := true, bitsMsbFirst := m })
      (fun _ _ => rfl) (fun hs => ?_) (fun hs => ?_)
    · simp [step, scopeIsBitsRun, hs, rootAnnot, Annot.bitsRun]
    · cases hst : s.stack with
      | nil => exact absurd hst hs
      | cons n rest => simp [step, scopeIsBitsRun, hst]

/-- **Run lemma**: so does a whole sequence. -/
theorem rebased_run {b : Builder} :
    ∀ {level level' : Nat} {u u' : Uncovered} {s : Builder} (ops : List Op),
      Rebased b level u s → Uncovered.effect level u ops = some (level', u') →
      Rebased b level' u' (run step s ops)
  | _, _, _, _, _, [], h, he => by
    cases he
    exact h
  | level, _, u, _, s, o :: ops, h, he => by
    cases hstep : u.step level o with
    | none => simp [Uncovered.effect, hstep] at he
    | some p =>
      simp only [Uncovered.effect, hstep] at he
      exact rebased_run ops (rebased_step h hstep) he

/-- **Restoring** takes back every scope opened and every node added since the mark, and none of
the uncovered cells. -/
theorem restore_rebased {b : Builder} {level : Nat} {u : Uncovered} {s : Builder}
    (h : Rebased b level u s) : s.restore b.mark = b.rebase u [] := by
  obtain ⟨hu, opened, more, hlen, rfl⟩ := h
  have hbase : (b.rebase u more).stack.length = b.stack.length := by
    cases hstack : b.stack with
    | nil => simp [rebase, hstack]
    | cons n rest =>
      obtain ⟨a, hscope⟩ := scope_of_cons hu hstack
      simp [rebase, hstack, hscope]
  have hresize : ({ b.rebase u more with stack := opened ++ (b.rebase u more).stack } :
      Builder).resize b.mark.depth = b.rebase u more := by
    unfold resize
    split
    · simp [mark, hbase]
    · rename_i hge
      have hnil : opened = [] := by
        have : opened.length = 0 := by simp [mark, hbase] at hge; simpa using hge
        exact List.length_eq_zero_iff.1 this
      simp [hnil]
  simp only [restore, hresize]
  cases hstack : b.stack with
  | nil =>
    have hscope : u.scope = none := by simpa [hstack] using hu
    cases more <;> simp [rebase, mark, current, setCurrent, hstack, hscope]
  | cons n rest =>
    obtain ⟨a, hscope⟩ := scope_of_cons hu hstack
    cases more <;> simp [rebase, mark, current, setCurrent, hstack, hscope]

theorem rebase_uncovered (b : Builder) : b.rebase b.uncovered [] = b := by
  cases b with
  | mk stack roots tag count d n bits msb =>
    cases stack with
    | nil => simp [rebase, uncovered, rootAnnot]
    | cons m rest =>
      cases m
      simp [rebase, uncovered, rootAnnot]

theorem rebased_self (b : Builder) : Rebased b 0 b.uncovered b := by
  refine ⟨?_, [], [], rfl, ?_⟩
  · cases h : b.stack <;> simp [uncovered, h]
  · simp [rebase_uncovered]

/-! ## What `finish` shows of a builder -/

/-- Closing the scopes of `stack` in turn, innermost first, with `more` the last nodes of the
innermost: the nodes that reach the top level. -/
def closed (pos : Nat) : List Node → List Node → List Node
  | [], more => more
  | n :: rest, more => closed pos rest [.mk { n.cell with endOffset := pos } (n.kids ++ more)]

theorem closed_length (pos : Nat) :
    ∀ (stack : List Node) (n : Node), (closed pos stack [n]).length = 1
  | [], _ => rfl
  | _ :: rest, _ => closed_length pos rest _

theorem closed_kids_ne_nil (pos : Nat) :
    ∀ (stack : List Node) {n : Node}, n.kids ≠ [] →
      ∃ m, closed pos stack [n] = [m] ∧ m.kids ≠ []
  | [], n, hn => ⟨n, rfl, hn⟩
  | _ :: rest, _, _ => closed_kids_ne_nil pos rest (by simp)

/-- Two open scopes that are the same once closed: an open scope's end offset is provisional. -/
def AlikeScope (n m : Node) : Prop :=
  { n.cell with endOffset := 0 } = { m.cell with endOffset := 0 } ∧ n.kids = m.kids

theorem closed_inj (pos : Nat) :
    ∀ {s t : List Node} {xs ys : List Node}, s.length = t.length → xs.length = ys.length →
      closed pos s xs = closed pos t ys → xs = ys ∧ List.Forall₂ AlikeScope s t
  | [], [], _, _, _, _, h => ⟨h, .nil⟩
  | n :: s, m :: t, xs, ys, hlen, hxy, h => by
    have hclosed : closed pos s [.mk { n.cell with endOffset := pos } (n.kids ++ xs)] =
        closed pos t [.mk { m.cell with endOffset := pos } (m.kids ++ ys)] := h
    obtain ⟨heq, hrest⟩ := closed_inj pos (Nat.succ.inj hlen) (by rfl) hclosed
    have hnode := Node.ext_iff.1 (List.singleton_inj.1 heq)
    obtain ⟨hkids, hxs⟩ := List.append_inj' hnode.2 hxy
    refine ⟨hxs, .cons ⟨?_, hkids⟩ hrest⟩
    have hcell := congrArg (fun c : Cell => { c with endOffset := 0 }) hnode.1
    simpa using hcell

theorem run_closeAll (pos : Nat) :
    ∀ (k : Nat) (s : Builder) (more : List Node), s.stack.length ≤ k →
      run step (s.setCurrent (s.current ++ more)) (List.replicate k (.endStruct pos)) =
        { s with stack := [], roots := s.roots ++ closed pos s.stack more }
  | 0, s, more, hk => by
    have hs : s.stack = [] := List.length_eq_zero_iff.1 (Nat.le_zero.1 hk)
    simp [setCurrent, current, closed, hs]
  | k + 1, s, more, hk => by
    rw [List.replicate_succ, run_cons]
    cases hs : s.stack with
    | nil =>
      have ih := run_closeAll pos k s more (by simp [hs])
      have e : (s.setCurrent (s.current ++ more)).step (.endStruct pos) =
          s.setCurrent (s.current ++ more) := by
        simp [step, closeScope, setCurrent, hs]
      rw [e, ih, hs]
    | cons n rest =>
      have ih := run_closeAll pos k { s with stack := rest }
        [.mk { n.cell with endOffset := pos } (n.kids ++ more)]
        (by simpa [hs] using hk)
      have e : (s.setCurrent (s.current ++ more)).step (.endStruct pos) =
          ({ s with stack := rest } : Builder).attach
            (.mk { n.cell with endOffset := pos } (n.kids ++ more)) := by
        simp [step, closeScope, setCurrent, current, hs]
      rw [e]
      exact ih

/-- The leaf the observations below add. -/
def leafOp : Op := .addField none 0 0 .uInt8 none .fixed ⟨0, 0, false, false⟩

/-- The node `leafOp` makes when `tag` is pending. -/
def leaf (tag : Int) : Node := .mk { (default : Cell) with type := .uInt8, variantTag := tag } []

/-- What a leaf added now and every scope closed make of a builder. -/
theorem finish_leaf (s : Builder) (k : Nat) (hk : s.stack.length ≤ k) :
    (run step s (leafOp :: List.replicate k (.endStruct 0))).finish true 0 =
      some (.mk (s.rootCell 0) (s.roots ++ closed 0 s.stack [leaf s.pendingVariantTag])) := by
  have hadd : s.step leafOp = s.clearPendingTag.setCurrent
      (s.clearPendingTag.current ++ [leaf s.pendingVariantTag]) := rfl
  rw [run_cons, hadd, run_closeAll 0 k s.clearPendingTag _ hk]
  have hne : closed 0 s.stack [leaf s.pendingVariantTag] ≠ [] := fun hnil => by
    have hlen := closed_length 0 s.stack (leaf s.pendingVariantTag)
    simp [hnil] at hlen
  simp [finish, clearPendingTag, rootCell, hne]

theorem closeScope_length (s : Builder) (pos : Nat) :
    (s.closeScope pos).stack.length = s.stack.length - 1 := by
  unfold closeScope attach setCurrent
  cases hs : s.stack with
  | nil => simp [hs]
  | cons n rest => cases rest <;> simp

theorem run_close_length (pos : Nat) :
    ∀ (k : Nat) (s : Builder),
      (run step s (List.replicate k (.endStruct pos))).stack.length = s.stack.length - k
  | 0, _ => rfl
  | k + 1, s => by
    rw [List.replicate_succ, run_cons, run_close_length pos k]
    simp only [step, closeScope_length]
    omega

/-- Builders nobody can tell apart have equally many scopes open. After closing as many as the
shallower one has, a leaf goes to the top level of one and under a scope of the other. -/
theorem Same.length_le {s t : Builder} (h : Same s t) : t.stack.length ≤ s.stack.length := by
  by_contra hlt
  let shut : List Op := List.replicate s.stack.length (.endStruct 0)
  have hobs : (run step (run step s shut) (leafOp :: List.replicate t.stack.length
        (.endStruct 0))).finish true 0 =
      (run step (run step t shut) (leafOp :: List.replicate t.stack.length
        (.endStruct 0))).finish true 0 := by
    rw [← run_append, ← run_append]
    exact h true 0 _
  have hs : (run step s shut).stack = [] :=
    List.length_eq_zero_iff.1 (by rw [run_close_length]; omega)
  have ht : (run step t shut).stack ≠ [] :=
    List.length_pos_iff.1 (by rw [run_close_length]; omega)
  obtain ⟨n, stack, hcons⟩ := List.exists_cons_of_ne_nil ht
  rw [finish_leaf _ _ (by simp [hs]), finish_leaf _ _ (by rw [run_close_length]; omega)] at hobs
  obtain ⟨m, hm, hkids⟩ := closed_kids_ne_nil 0 stack
    (n := .mk { n.cell with endOffset := 0 }
      (n.kids ++ [leaf (run step t shut).pendingVariantTag])) (by simp)
  rw [hs, hcons] at hobs
  simp only [closed, hm, Option.some.injEq, Node.mk.injEq] at hobs
  have hlast := List.singleton_inj.1 (List.append_inj' hobs.2 rfl).2
  exact hkids (congrArg Node.kids hlast).symm

/-- Everything about a builder that its finished trees show. -/
structure Alike (s t : Builder) : Prop where
  stack : List.Forall₂ AlikeScope s.stack t.stack
  roots : s.roots = t.roots
  tag : s.pendingVariantTag = t.pendingVariantTag
  count : s.pendingCountField = t.pendingCountField
  root : s.rootAnnot = t.rootAnnot

theorem Same.length_eq {s t : Builder} (h : Same s t) : s.stack.length = t.stack.length :=
  Nat.le_antisymm (Same.length_le fun ok n ops => (h ok n ops).symm) h.length_le

/-- The node of an empty array begun when `tag` and `count` are pending. -/
def emptyArray (tag : Int) (count : Option String) : Node :=
  .mk { (default : Cell) with
    type := .array, variantTag := tag
    derives := if count.isSome then .hasCount else .nothing, determines := count } []

/-- What an empty array added now and every scope closed make of a builder. -/
theorem finish_array (s : Builder) (k : Nat) (hk : s.stack.length ≤ k) :
    (run step s (.beginArray none 0 :: List.replicate (k + 1) (.endStruct 0))).finish true 0 =
      some (.mk (s.rootCell 0) (s.roots ++ closed 0 s.stack
        [emptyArray s.pendingVariantTag s.pendingCountField])) := by
  have hadd : (s.step (.beginArray none 0)).step (.endStruct 0) =
      ({ s with pendingVariantTag := -1, pendingCountField := none } : Builder).attach
        (emptyArray s.pendingVariantTag s.pendingCountField) := by
    cases s with
    | mk stack roots tag count d n bits msb => cases count <;> rfl
  have hclose := run_closeAll 0 k
    ({ s with pendingVariantTag := -1, pendingCountField := none } : Builder)
    [emptyArray s.pendingVariantTag s.pendingCountField] hk
  have hne : closed 0 s.stack [emptyArray s.pendingVariantTag s.pendingCountField] ≠ [] :=
    fun hnil => by
      have hlen := closed_length 0 s.stack (emptyArray s.pendingVariantTag s.pendingCountField)
      simp [hnil] at hlen
  rw [run_cons, List.replicate_succ, run_cons, hadd, attach, hclose]
  simp [finish, rootCell, hne]

theorem Same.finish_eq {s t : Builder} (h : Same s t) (ops : List Op) :
    (run step s ops).finish true 0 = (run step t ops).finish true 0 := h true 0 ops

/-- Builders nobody can tell apart agree on everything finished trees show. -/
theorem Same.alike {s t : Builder} (h : Same s t) : Alike s t := by
  have hlen := h.length_eq
  have hleaf := h.finish_eq (leafOp :: List.replicate s.stack.length (.endStruct 0))
  have harr := h.finish_eq
    (.beginArray none 0 :: List.replicate (s.stack.length + 1) (.endStruct 0))
  rw [finish_leaf s _ (Nat.le_refl _), finish_leaf t _ (Nat.le_of_eq hlen.symm)] at hleaf
  rw [finish_array s _ (Nat.le_refl _), finish_array t _ (Nat.le_of_eq hlen.symm)] at harr
  simp only [Option.some.injEq, Node.mk.injEq] at hleaf harr
  obtain ⟨hroots, hclosed⟩ := List.append_inj' hleaf.2 (by simp [closed_length])
  obtain ⟨htag, hstack⟩ := closed_inj 0 hlen (by rfl) hclosed
  obtain ⟨hcount, -⟩ := closed_inj 0 hlen (by rfl) (List.append_inj' harr.2 (by simp [closed_length])).2
  have htagCell := congrArg Node.cell (List.singleton_inj.1 htag)
  have hcountCell := congrArg Node.cell (List.singleton_inj.1 hcount)
  exact
    { stack := hstack
      roots := hroots
      tag := congrArg Cell.variantTag htagCell
      count := congrArg Cell.determines hcountCell
      root := congrArg Cell.annot hleaf.1 }

/-! ## Calls that close a marked scope -/

/-- How many nodes each open scope holds, innermost first, and the top level last. -/
def widths (s : Builder) : List Nat := s.stack.map (fun n => n.kids.length) ++ [s.roots.length]

/-- A node joins the innermost scope. -/
def bump : List Nat → List Nat
  | k :: w => (k + 1) :: w
  | [] => []

/-- The innermost scope joins its parent; the top level stays. -/
def fold : List Nat → List Nat
  | _ :: k :: w => (k + 1) :: w
  | w => w

/-- What a call does to the widths. -/
def widthsAfter : Op → List Nat → List Nat
  | .beginStruct .., w | .beginArray .., w | .beginVariant .., w => 0 :: w
  | .endStruct _, w | .endArray _, w => fold w
  | .addField .., w => bump w
  | _, w => w

theorem widths_attach (s : Builder) (n : Node) : (s.attach n).widths = bump s.widths := by
  cases hs : s.stack <;> simp [attach, setCurrent, current, widths, bump, hs]

theorem widths_closeScope (s : Builder) (pos : Nat) : (s.closeScope pos).widths = fold s.widths := by
  cases hs : s.stack with
  | nil => simp [closeScope, widths, fold, hs]
  | cons n rest =>
    simp only [closeScope, hs, widths_attach]
    cases rest <;> simp [widths, bump, fold, hs]

theorem widths_step (s : Builder) (o : Op) : (s.step o).widths = widthsAfter o s.widths := by
  cases o with
  | beginStruct name pos => rfl
  | beginArray name pos =>
    cases hcount : s.pendingCountField <;>
      simp [step, beginArray, hcount, widths, widthsAfter, openScope, modifyScope, clearPendingTag]
  | beginVariant name pos tag => rfl
  | endStruct pos | endArray pos => exact widths_closeScope s pos
  | addField name start stop t v enc bits => exact widths_attach s.clearPendingTag _
  | setPendingVariantTag tag => rfl
  | setPendingCountField path => rfl
  | rootDetermines d name => rfl
  | scopeDeterminesRest f =>
    cases hs : s.stack <;>
      simp [step, scopeDeterminesRest, hs, setRootDetermines, modifyScope, widths, widthsAfter]
  | scopeIsBitsRun m =>
    cases hs : s.stack <;>
      simp [step, scopeIsBitsRun, hs, modifyScope, widths, widthsAfter]

/-- Some enclosing scope of the mark (or the top level) holds more nodes than the mark recorded
for it could account for. -/
def Overfull (marked now : List Nat) : Prop :=
  ∃ above k outer above' k' outer', marked = above ++ k :: outer ∧ now = above' ++ k' :: outer' ∧
    above ≠ [] ∧ k < k' ∧ List.Forall₂ (· ≤ ·) outer outer'

/-- No later call takes the extra node away again. -/
theorem overfull_step {marked now : List Nat} (h : Overfull marked now) (o : Op) :
    Overfull marked (widthsAfter o now) := by
  obtain ⟨above, k, outer, above', k', outer', rfl, rfl, hne, hlt, hle⟩ := h
  have hpush : ∀ above', Overfull (above ++ k :: outer) (above' ++ k' :: outer') := fun above' =>
    ⟨above, k, outer, above', k', outer', rfl, rfl, hne, hlt, hle⟩
  have hbump : Overfull (above ++ k :: outer) ((k' + 1) :: outer') :=
    ⟨above, k, outer, [], k' + 1, outer', rfl, rfl, hne, by omega, hle⟩
  have hfold : Overfull (above ++ k :: outer) (fold (above' ++ k' :: outer')) := by
    match above', outer', hle with
    | [], [], _ => exact hpush []
    | [], y :: outer', .cons (a := j) hj hrest =>
      -- the overfull scope itself is closed: its parent is overfull now
      exact ⟨above ++ [k], j, _, [], y + 1, outer', by simp, rfl, by simp, by omega, hrest⟩
    | [a], _, _ => exact hbump
    | a :: a' :: above', _, _ => exact hpush ((a' + 1) :: above')
  cases o with
  | beginStruct | beginArray | beginVariant => exact hpush (0 :: above')
  | endStruct pos | endArray pos => exact hfold
  | addField =>
    cases above' with
    | nil => exact hbump
    | cons a above' => exact hpush ((a + 1) :: above')
  | setPendingVariantTag | setPendingCountField | rootDetermines | scopeDeterminesRest
  | scopeIsBitsRun => exact hpush above'

theorem overfull_run {marked : List Nat} {s : Builder} (ops : List Op)
    (h : Overfull marked s.widths) : Overfull marked (run step s ops).widths :=
  run_invariant step (P := fun s => Overfull marked s.widths)
    (fun s o h => by rw [widths_step]; exact overfull_step h o) ops h

theorem step_eq_none {level : Nat} {u : Uncovered} {o : Op} (h : u.step level o = none) :
    level = 0 ∧ u.scope.isSome ∧ widthsAfter o = fold := by
  cases o with
  | endStruct pos | endArray pos =>
    cases level with
    | succ n => simp [Uncovered.step] at h
    | zero =>
      refine ⟨rfl, ?_, rfl⟩
      cases hs : u.scope with
      | none => simp [Uncovered.step, hs] at h
      | some a => rfl
  | _ => simp [Uncovered.step] at h

/-- A sequence that closes a marked scope leaves the builder overfull. -/
theorem overfull_of_effect {b : Builder} :
    ∀ {level : Nat} {u : Uncovered} {s : Builder} (ops : List Op),
      Rebased b level u s → Uncovered.effect level u ops = none →
      Overfull b.widths (run step s ops).widths
  | level, u, s, o :: ops, h, he => by
    cases hstep : u.step level o with
    | some p =>
      simp only [Uncovered.effect, hstep] at he
      exact overfull_of_effect ops (rebased_step h hstep) he
    | none =>
      -- `o` closes the innermost marked scope
      refine overfull_run ops ?_
      obtain ⟨rfl, hsome, hfold⟩ := step_eq_none hstep
      obtain ⟨hu, opened, more, hlen, rfl⟩ := h
      obtain rfl : opened = [] := List.length_eq_zero_iff.1 hlen
      obtain ⟨a, hscope⟩ := Option.isSome_iff_exists.1 hsome
      rw [widths_step, hfold]
      match hstack : b.stack with
      | [] => simp [hscope, hstack] at hu
      | [n] =>
        exact ⟨[n.kids.length], b.roots.length, [], [], b.roots.length + 1, [],
          by simp [widths, hstack], by simp [rebase, hstack, hscope, widths, fold], by simp,
          by omega, .nil⟩
      | n :: m :: rest =>
        refine ⟨[n.kids.length], m.kids.length, _, [], m.kids.length + 1, _,
          by simp [widths, hstack]; rfl,
          by simp [rebase, hstack, hscope, widths, fold]; rfl, by simp, by omega, ?_⟩
        exact List.forall₂_same.2 fun _ _ => Nat.le_refl _

theorem alikeScope_kids :
    ∀ {s t : List Node}, List.Forall₂ AlikeScope s t → s.map Node.kids = t.map Node.kids
  | _, _, .nil => rfl
  | _, _, .cons hn hrest => by rw [List.map_cons, List.map_cons, hn.2, alikeScope_kids hrest]

theorem Alike.widths_eq {s t : Builder} (h : Alike s t) : s.widths = t.widths := by
  have hkids := congrArg (List.map List.length) (alikeScope_kids h.stack)
  simp only [List.map_map] at hkids
  rw [widths, widths, h.roots]
  exact congrArg (· ++ [t.roots.length]) hkids

theorem widths_resize (s : Builder) (depth : Nat) :
    (s.resize depth).widths = s.widths.drop (s.widths.length - (depth + 1)) := by
  unfold resize
  split
  · rename_i h
    have hle : s.stack.length - depth ≤ s.stack.length := Nat.sub_le _ _
    simp [widths, List.drop_append_of_le_length, hle]
  · rename_i h
    have hzero : s.stack.length - depth = 0 := by omega
    simp [widths, hzero]

/-- What a restore leaves of the widths: the scopes above the mark's depth are gone, and only the
innermost remaining one is cut. -/
theorem widths_restore (s : Builder) (m : Mark) :
    ∃ k w, s.widths.drop (s.widths.length - (m.depth + 1)) = k :: w ∧
      (s.restore m).widths = min k m.kids :: w := by
  rw [← widths_resize]
  simp only [restore]
  generalize s.resize m.depth = r
  cases hr : r.stack with
  | nil =>
    refine ⟨r.roots.length, [], by simp [widths, hr], ?_⟩
    split <;> rename_i h <;> simp [current, setCurrent, hr, widths] at h ⊢ <;> omega
  | cons n rest =>
    refine ⟨n.kids.length, rest.map (fun n => n.kids.length) ++ [r.roots.length],
      by simp [widths, hr], ?_⟩
    split <;> rename_i h <;> simp [current, setCurrent, hr, widths] at h ⊢ <;> omega

/-- No restore to the mark makes up for an overfull enclosing scope. -/
theorem overfull_restore {marked : List Nat} {s : Builder} {m : Mark}
    (hdepth : m.depth + 1 = marked.length) (h : Overfull marked s.widths) :
    (s.restore m).widths ≠ marked := by
  intro heq
  obtain ⟨above, k, outer, above', k', outer', rfl, hnow, hne, hlt, hle⟩ := h
  obtain ⟨x, w, hdrop, hrest⟩ := widths_restore s m
  have houter := hle.length_eq
  have hlen := congrArg List.length hdrop
  have hlen' := congrArg List.length (hrest.symm.trans heq)
  rw [hnow] at hdrop hlen
  simp only [List.length_drop, List.length_append, List.length_cons] at hlen hlen' hdepth
  obtain ⟨y, ys, rfl⟩ := List.exists_cons_of_ne_nil hne
  simp only [List.length_cons] at hlen hlen' hdepth
  -- the scope that is cut lies above the overfull one
  rw [List.drop_append_of_le_length (by simp only [List.length_append, List.length_cons]; omega)]
    at hdrop
  cases hcut : above'.drop ((above' ++ k' :: outer').length - (m.depth + 1)) with
  | nil =>
    have := congrArg List.length hcut
    simp only [List.length_drop, List.length_append, List.length_cons, List.length_nil] at this
    omega
  | cons z zs =>
    rw [hcut] at hdrop
    obtain ⟨rfl, rfl⟩ := List.cons.inj hdrop
    have htail := (List.cons.inj (hrest.symm.trans heq)).2
    have hsplit := List.append_inj' htail (by simp [houter])
    exact absurd (List.cons.inj hsplit.2).1 (by omega)

/-! ## Exactly when a restore is a rollback -/

theorem Alike.uncovered_eq {b : Builder} {u : Uncovered}
    (hu : u.scope.isNone = b.stack.isEmpty) (h : Alike (b.rebase u []) b) : u = b.uncovered := by
  have hscope : u.scope = b.uncovered.scope := by
    have hst := h.stack
    cases hstack : b.stack with
    | nil =>
      have hnone : u.scope = none := by simpa [hstack] using hu
      simp [uncovered, hstack, hnone]
    | cons n rest =>
      obtain ⟨a, hsome⟩ := scope_of_cons hu hstack
      simp only [rebase, hstack, hsome] at hst
      cases hst with
      | cons hn _ =>
        have hannot := congrArg Cell.annot hn.1
        have ha : a = n.cell.annot := hannot
        simp [uncovered, hstack, hsome, ha]
  cases u with
  | mk tag count scope root =>
    have htag : tag = b.pendingVariantTag := h.tag
    have hcount : count = b.pendingCountField := h.count
    have hroot : root = b.rootAnnot := h.root
    simp only at hscope
    rw [htag, hcount, hscope, hroot]
    rfl

/-- **Rollback**: after any calls, the restored builder is the marked one for whatever follows,
exactly when the calls close no scope open at the mark and leave the uncovered cells as they
were. -/
theorem same_restore_iff (b : Builder) (ops : List Op) :
    Same ((run step b ops).restore b.mark) b ↔ b.Covered ops := by
  constructor
  · intro h
    cases he : Uncovered.effect 0 b.uncovered ops with
    | none =>
      have hover := overfull_of_effect ops (rebased_self b) he
      exact absurd h.alike.widths_eq (overfull_restore (by simp [mark, widths]) hover)
    | some p =>
      have hre := rebased_run ops (rebased_self b) he
      rw [restore_rebased hre] at h
      simp [Covered, he, h.alike.uncovered_eq hre.1]
  · intro h
    obtain ⟨⟨level, u⟩, he, rfl⟩ := Option.map_eq_some_iff.1 h
    have hre := rebased_run ops (rebased_self b) he
    rw [restore_rebased hre, rebase_uncovered]
    exact fun _ _ => Indist.of_eq rfl

end Builder

end Bbq.Zcow
