import Bbq.Index.Outline

/-!
# The tree builder makes the draft's index

`draft` reads a draft off a `zcow::builder`. Every call does to it what the draft's own step does
(`draft_step`), and a restore, which truncates the scope stack and one child list, leaves the draft
saved at the mark with the tag that is armed now (`draft_restore`), provided that no scope open at
the mark was closed since. `treeBuilder` puts these together.
-/

namespace Bbq.Index

open Bbq.Lib

/-! ## What a draft has grown by -/

namespace Draft

/-- The draft with more in its innermost scope. -/
def grow (d : Draft) (more : List Outline) : Draft :=
  match d.scopes with
  | [] => { d with roots := d.roots ++ more }
  | (h, kids) :: outer => { d with scopes := (h, kids ++ more) :: outer }

/-- `d` is `b` some calls later, none of which closed a scope of `b`'s. -/
def Grown (b d : Draft) : Prop :=
  ∃ opened more tag, d = { b.grow more with scopes := opened ++ (b.grow more).scopes, pendingVariantTag := tag }

variable {b d : Draft}

theorem length_scopes_grow (d : Draft) (more : List Outline) : (d.grow more).scopes.length = d.scopes.length := by
  unfold grow
  split <;> simp [*]

theorem grow_nil (d : Draft) : d.grow [] = d := by
  obtain ⟨_ | ⟨⟨h, kids⟩, outer⟩, roots, tag⟩ := d <;> simp [grow]

theorem attach_grow (d : Draft) (more : List Outline) (t : Outline) :
    (d.grow more).attach t = d.grow (more ++ [t]) := by
  unfold grow
  split <;> simp [attach, *]

theorem grown_refl (d : Draft) : d.Grown d :=
  ⟨[], [], d.pendingVariantTag, by rw [grow_nil]; rfl⟩

theorem Grown.depth_le (h : b.Grown d) : b.scopes.length ≤ d.scopes.length := by
  obtain ⟨opened, more, tag, rfl⟩ := h
  simp [length_scopes_grow]

theorem Grown.setTag (h : b.Grown d) (tag : Int) : b.Grown { d with pendingVariantTag := tag } := by
  obtain ⟨opened, more, _, rfl⟩ := h
  exact ⟨opened, more, tag, rfl⟩

theorem Grown.attach (h : b.Grown d) (t : Outline) : b.Grown (d.attach t) := by
  obtain ⟨opened, more, tag, rfl⟩ := h
  cases opened with
  | nil =>
    refine ⟨[], more ++ [t], tag, ?_⟩
    rw [← attach_grow]
    unfold Draft.attach
    cases (b.grow more).scopes <;> rfl
  | cons x opened => exact ⟨(x.1, x.2 ++ [t]) :: opened, more, tag, rfl⟩

theorem Grown.openScope (h : b.Grown d) (name : Option String) (type : CaptureType) (pos : Nat) (tag : Int) :
    b.Grown (d.openScope name type pos tag) := by
  obtain ⟨opened, more, armed, rfl⟩ := h
  exact ⟨_ :: opened, more, armed, rfl⟩

theorem Grown.closeScope (h : b.Grown d) (hopen : b.scopes.length < d.scopes.length) (pos : Nat) :
    b.Grown (d.closeScope pos) := by
  obtain ⟨opened, more, tag, rfl⟩ := h
  cases opened with
  | nil =>
    rw [List.nil_append, length_scopes_grow] at hopen
    exact absurd hopen (Nat.lt_irrefl _)
  | cons x opened =>
    have hrest : b.Grown { b.grow more with scopes := opened ++ (b.grow more).scopes, pendingVariantTag := tag } :=
      ⟨opened, more, tag, rfl⟩
    exact hrest.attach (.mk { x.1 with endOffset := pos } x.2)

/-- **Step lemma**: a call that closes no scope of `b`'s. -/
theorem Grown.step (h : b.Grown d) {o : Op} (hopen : o.bracket = .closes → b.scopes.length < d.scopes.length) :
    b.Grown (d.step o) := by
  cases o with
  | beginStruct name pos | beginArray name pos => exact (h.setTag (-1)).openScope ..
  | beginVariant name pos arm => exact h.openScope ..
  | endStruct pos | endArray pos => exact h.closeScope (hopen rfl) pos
  | addField name start stop t v enc bits => exact (h.setTag (-1)).attach _
  | setPendingVariantTag tag => exact h.setTag tag
  | _ => exact h

theorem length_scopes_attach (d : Draft) (t : Outline) : (d.attach t).scopes.length = d.scopes.length := by
  unfold Draft.attach
  split <;> simp [*]

theorem length_scopes_step (d : Draft) (o : Op) : (d.step o).scopes.length = o.bracket.depth d.scopes.length := by
  cases o with
  | endStruct pos | endArray pos =>
    show (d.closeScope pos).scopes.length = d.scopes.length - 1
    unfold Draft.closeScope
    split
    · simp [*]
    · rename_i hscopes
      rw [length_scopes_attach, hscopes]
      rfl
  | addField name start stop t v enc bits => exact length_scopes_attach _ _
  | _ => rfl

/-! ## Truncating a draft -/

/-- What has been recorded in the innermost scope. -/
def current (d : Draft) : List Outline :=
  match d.scopes with
  | [] => d.roots
  | (_, kids) :: _ => kids

/-- Keep the first `n` of what has been recorded in the innermost scope. -/
def cut (d : Draft) (n : Nat) : Draft :=
  match d.scopes with
  | [] => { d with roots := d.roots.take n }
  | (h, kids) :: outer => { d with scopes := (h, kids.take n) :: outer }

theorem cut_grow (d : Draft) (more : List Outline) : (d.grow more).cut d.current.length = d := by
  obtain ⟨_ | ⟨⟨h, kids⟩, outer⟩, roots, tag⟩ := d <;> simp [grow, cut, current]

theorem cut_keepTag (now d : Draft) (n : Nat) : (now.keepTag d).cut n = now.keepTag (d.cut n) := by
  obtain ⟨_ | ⟨⟨h, kids⟩, outer⟩, roots, tag⟩ := d <;> rfl

end Draft

/-! ## Reading a draft off the builder -/

def cellHead (c : Zcow.Cell) : Head :=
  ⟨c.name, c.type, c.variantTag, c.startOffset, c.endOffset, c.computedValue⟩

mutual

/-- What a node says. -/
def nodeOutline : Zcow.Node → Outline
  | .mk c kids => .mk (cellHead c) (nodeOutlines kids)

def nodeOutlines : List Zcow.Node → List Outline
  | [] => []
  | n :: ns => nodeOutline n :: nodeOutlines ns

end

@[simp] theorem nodeOutlines_eq (ns : List Zcow.Node) : nodeOutlines ns = ns.map nodeOutline := by
  induction ns with
  | nil => rfl
  | cons n ns ih => rw [nodeOutlines, ih, List.map_cons]

/-- An open scope. -/
def scopeOutline (n : Zcow.Node) : Head × List Outline := (cellHead n.cell, nodeOutlines n.kids)

end Bbq.Index

namespace Bbq.Zcow.Builder

open Bbq.Index Bbq.Lib

def draft (b : Builder) : Draft :=
  { scopes := b.stack.map scopeOutline, roots := nodeOutlines b.roots, pendingVariantTag := b.pendingVariantTag }

variable {b s : Builder}

theorem length_current (b : Builder) : b.draft.current.length = b.current.length := by
  unfold Draft.current current draft
  cases b.stack <;> simp [scopeOutline]

theorem draft_attach (b : Builder) (n : Node) : (b.attach n).draft = b.draft.attach (nodeOutline n) := by
  unfold attach setCurrent current Draft.attach draft
  cases b.stack <;> simp [scopeOutline]

theorem draft_closeScope (b : Builder) (pos : Nat) : (b.closeScope pos).draft = b.draft.closeScope pos := by
  obtain ⟨_ | ⟨⟨c, kids⟩, rest⟩, roots, tag, count, derives, determines, bits, msb⟩ := b
  · rfl
  · exact draft_attach _ _

/-- An annotation is not part of the outline. -/
theorem draft_modifyScope (b : Builder) {f : Cell → Cell} (hf : ∀ c, cellHead (f c) = cellHead c) :
    (b.modifyScope f).draft = b.draft := by
  unfold modifyScope
  split
  · rfl
  · rename_i hstack
    simp [draft, hstack, scopeOutline, hf]

theorem draft_beginArray (b : Builder) (name : Option String) (pos : Nat) :
    (b.beginArray name pos).draft = b.draft.step (.beginArray name pos) := by
  unfold beginArray
  split <;> rfl

/-- **Step lemma**: every call does to the draft what the draft's step does. -/
theorem draft_step (b : Builder) (o : Index.Op) : (Index.zcow.step b o).draft = b.draft.step o := by
  cases o with
  | beginArray name pos => exact draft_beginArray b name pos
  | beginStruct name pos | beginVariant name pos arm => rfl
  | endStruct pos | endArray pos => exact draft_closeScope b pos
  | addField name start stop t v enc bits => exact draft_attach _ _
  | scopeDeterminesRest sizeField =>
    show (b.scopeDeterminesRest sizeField).draft = b.draft
    unfold scopeDeterminesRest
    split
    · rfl
    · exact draft_modifyScope b fun _ => rfl
  | scopeIsBitsRun msbFirst =>
    show (b.scopeIsBitsRun msbFirst).draft = b.draft
    unfold scopeIsBitsRun
    split
    · rfl
    · exact draft_modifyScope b fun _ => rfl
  | _ => rfl

/-! ## Truncating -/

theorem resize_eq (b : Builder) (depth : Nat) :
    b.resize depth = { b with stack := b.stack.drop (b.stack.length - depth) } := by
  unfold resize
  split
  · rfl
  · rw [Nat.sub_eq_zero_of_le (by omega), List.drop_zero]

theorem setCurrent_current (b : Builder) : b.setCurrent b.current = b := by
  obtain ⟨_ | ⟨⟨c, kids⟩, rest⟩, roots, tag, count, derives, determines, bits, msb⟩ := b <;> rfl

theorem restore_eq (b : Builder) (m : Mark) :
    b.restore m = (b.resize m.depth).setCurrent ((b.resize m.depth).current.take m.kids) := by
  show (if m.kids < (b.resize m.depth).current.length then _ else b.resize m.depth) = _
  split
  · rfl
  · rw [List.take_of_length_le (by omega), setCurrent_current]

/-- Truncating the innermost scope's children. -/
theorem draft_setCurrent_take (b : Builder) (n : Nat) :
    (b.setCurrent (b.current.take n)).draft = b.draft.cut n := by
  unfold setCurrent current Draft.cut draft
  cases b.stack <;> simp [scopeOutline]

/-- **Restoring** leaves the draft that was saved, with the tag armed now. -/
theorem draft_restore (h : b.draft.Grown s.draft) : (s.restore b.mark).draft = s.draft.keepTag b.draft := by
  obtain ⟨opened, more, tag, hs⟩ := h
  have hscopes : s.stack.map scopeOutline = opened ++ (b.draft.grow more).scopes := congrArg Draft.scopes hs
  have hroots : nodeOutlines s.roots = (b.draft.grow more).roots := congrArg Draft.roots hs
  have hgrown : (b.draft.grow more).scopes.length = b.stack.length := by
    rw [Draft.length_scopes_grow, draft, List.length_map]
  have hdepth : s.stack.length - b.stack.length = opened.length := by
    have := congrArg List.length hscopes
    rw [List.length_map, List.length_append, hgrown] at this
    omega
  have hresize : (s.resize b.stack.length).draft = s.draft.keepTag (b.draft.grow more) := by
    rw [resize_eq, draft, Draft.keepTag]
    simp only [hdepth, List.map_drop, hscopes, hroots, List.drop_left]
    rfl
  rw [restore_eq, draft_setCurrent_take]
  show (s.resize b.stack.length).draft.cut b.current.length = _
  rw [hresize, ← length_current, Draft.cut_keepTag, Draft.cut_grow]

end Bbq.Zcow.Builder

namespace Bbq.Index

open Bbq.Lib

/-- **The tree builder** is a view of the draft. -/
def treeBuilder : Implements Op.bracket zcow Draft.step Draft.keepTag where
  view := Zcow.Builder.draft
  depth b := b.draft.scopes.length
  Good _ := True
  Since b s := b.draft.Grown s.draft
  good_step _ := trivial
  depth_step _ := by rw [Zcow.Builder.draft_step, Draft.length_scopes_step]
  view_step _ _ := Zcow.Builder.draft_step ..
  since_refl s := s.draft.grown_refl
  since_step h hopen := by
    rw [Zcow.Builder.draft_step]
    exact h.step hopen
  since_depth h := h.depth_le
  good_restore _ _ := trivial
  depth_restore h := congrArg (fun d => d.scopes.length) (Zcow.Builder.draft_restore h)
  view_restore h := Zcow.Builder.draft_restore h
  since_restore h hs := (congrArg (Draft.Grown _) (Zcow.Builder.draft_restore hs)).mpr (h.setTag _)

/-- What a tree reader hands out is the draft's index. -/
theorem finish_tree (b : Zcow.Builder) (pos : Nat) :
    (b.finish true pos).map nodeOutline = b.draft.finish pos := by
  unfold Zcow.Builder.finish Draft.finish Zcow.Builder.draft
  cases b.roots with
  | nil => rfl
  | cons n ns => rfl

end Bbq.Index
