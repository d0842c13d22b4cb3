import Bbq.Index.Outline
import Bbq.Lite.Rollback

/-!
# The flat builder makes the draft's index

A `bbq_capture_builder` holds a draft too, laid flat: the captures resolve to outlines, and each
open scope owns those from its first child's index on (`share`). Closing a scope moves its captures
to the end of the child buffer, which leaves what older captures point at alone
(`copyToArena_append`). `flatBuilder` puts the steps together.
-/

namespace Bbq.Index

open Bbq.Lib

/-! ## Resolved captures -/

def captureHead (fc : Lite.FieldCapture) : Head :=
  ⟨fc.name, fc.type, fc.variantTag, fc.startOffset, fc.endOffset, fc.computedValue⟩

mutual

/-- What a resolved capture says. -/
def resolvedOutline : Lite.Resolved → Outline
  | .mk fc kids => .mk (captureHead fc) (resolvedOutlines kids)

def resolvedOutlines : List Lite.Resolved → List Outline
  | [] => []
  | r :: rs => resolvedOutline r :: resolvedOutlines rs

end

theorem resolvedOutlines_eq (rs : List Lite.Resolved) : resolvedOutlines rs = rs.map resolvedOutline := by
  induction rs with
  | nil => rfl
  | cons r rs ih => rw [resolvedOutlines, ih, List.map_cons]

section Captures

open Lite

/-- `copy_to_arena` on one capture. -/
def copyOne (childBuf : List FieldCapture) : Nat → FieldCapture → Resolved
  | 0, fc => .mk fc []
  | fuel + 1, fc =>
    if (fc.type = .struct ∨ fc.type = .array) ∧ 0 < fc.childCount ∧ 0 ≤ fc.buildBufIndex then
      .mk { fc with buildBufIndex := -1 }
        (copyToArena childBuf fuel ((childBuf.drop fc.buildBufIndex.toNat).take fc.childCount.toNat))
    else .mk fc []

theorem copyToArena_eq_map (childBuf : List FieldCapture) (fuel : Nat) (src : List FieldCapture) :
    copyToArena childBuf fuel src = src.map (copyOne childBuf fuel) := by
  cases fuel <;> rfl

/-- What a capture says, its children looked up in the child buffer. -/
def captureOutline (childBuf : List FieldCapture) (fc : FieldCapture) : Outline :=
  resolvedOutline (copyOne childBuf childBuf.length fc)

variable {childBuf more src : List FieldCapture}

/-- What captures point at stays there when the buffer grows. -/
theorem copyToArena_append (hbuf : ∀ n, Builder.Below n childBuf[n]?.toList) :
    ∀ {fuel : Nat} {src : List FieldCapture}, Builder.Below childBuf.length src →
      copyToArena (childBuf ++ more) fuel src = copyToArena childBuf fuel src
  | 0, _, _ => rfl
  | fuel + 1, src, hsrc => by
    refine List.map_congr_left fun fc hfc => ?_
    split
    · rename_i h
      have hend := hsrc fc hfc h.2.1
      have hsame : ((childBuf ++ more).drop fc.buildBufIndex.toNat).take fc.childCount.toNat =
          (childBuf.drop fc.buildBufIndex.toNat).take fc.childCount.toNat := by
        rw [List.drop_append_of_le_length (by omega), List.take_append_of_le_length (by rw [List.length_drop]; omega)]
      rw [hsame, copyToArena_append hbuf]
      intro child hchild hcount
      obtain ⟨i, hi⟩ := List.mem_iff_getElem?.1 (List.mem_of_mem_drop (List.mem_of_mem_take hchild))
      have hlt : i < childBuf.length := (List.getElem?_eq_some_iff.1 hi).1
      have := hbuf i child (by rw [hi]; simp) hcount
      omega
    · rfl

/-- So captures say the same. -/
theorem captureOutline_append (hbuf : ∀ n, Builder.Below n childBuf[n]?.toList)
    (hbuf' : ∀ n, Builder.Below n (childBuf ++ more)[n]?.toList) (hsrc : Builder.Below childBuf.length src) :
    src.map (captureOutline (childBuf ++ more)) = src.map (captureOutline childBuf) := by
  have hcopy : copyToArena (childBuf ++ more) (childBuf ++ more).length src =
      copyToArena childBuf childBuf.length src := by
    rw [Builder.copyToArena_fuel hbuf' hsrc (by simp), copyToArena_append hbuf hsrc]
  rw [copyToArena_eq_map, copyToArena_eq_map] at hcopy
  have := congrArg (List.map resolvedOutline) hcopy
  rwa [List.map_map, List.map_map] at this

/-- A container whose children were just moved to the end of the buffer. -/
theorem captureOutline_container {moved : List FieldCapture} {fc : FieldCapture}
    (hbuf : ∀ n, Builder.Below n (childBuf ++ moved)[n]?.toList) (hmoved : Builder.Below childBuf.length moved)
    (ht : fc.type = .struct ∨ fc.type = .array) (hcount : fc.childCount = moved.length)
    (hindex : moved ≠ [] → fc.buildBufIndex = childBuf.length) :
    captureOutline (childBuf ++ moved) fc =
      .mk (captureHead fc) (moved.map (captureOutline (childBuf ++ moved))) := by
  cases moved with
  | nil =>
    rw [captureOutline]
    cases (childBuf ++ []).length with
    | zero => rfl
    | succ n => rw [copyOne, if_neg (by simp [hcount])]; rfl
  | cons m ms =>
    obtain ⟨n, hn⟩ : ∃ n, (childBuf ++ m :: ms).length = n + 1 := ⟨childBuf.length + ms.length, by simp; omega⟩
    have hle : childBuf.length ≤ n := by
      rw [List.length_append, List.length_cons] at hn
      omega
    have hkids : ((childBuf ++ m :: ms).drop fc.buildBufIndex.toNat).take fc.childCount.toNat = m :: ms := by
      rw [hindex (by simp), hcount, Int.toNat_natCast, Int.toNat_natCast, List.drop_left, List.take_length]
    have hfuel : copyToArena (childBuf ++ m :: ms) n (m :: ms) =
        copyToArena (childBuf ++ m :: ms) (n + 1) (m :: ms) := by
      rw [Builder.copyToArena_fuel hbuf hmoved hle, Builder.copyToArena_fuel hbuf hmoved (Nat.le_succ_of_le hle)]
    have hcontainer : 0 < fc.childCount ∧ 0 ≤ fc.buildBufIndex := by
      rw [hindex (by simp), hcount, List.length_cons]
      omega
    unfold captureOutline
    rw [hn, copyOne, if_pos ⟨ht, hcontainer⟩, hkids, hfuel, copyToArena_eq_map, resolvedOutline, resolvedOutlines_eq,
      List.map_map]
    rfl

end Captures

/-! ## The flat draft -/

def scopeHead (s : Lite.Scope) : Head := ⟨s.name, s.type, s.variantTag, s.startPos, s.startPos, none⟩

/-- What each open scope owns of the outlines, and what stands at top level. -/
def share : List Lite.Scope → List Outline → List (Head × List Outline) × List Outline
  | [], ts => ([], ts)
  | s :: outer, ts =>
    let rest := share outer (ts.take s.firstChildIndex)
    ((scopeHead s, ts.drop s.firstChildIndex) :: rest.1, rest.2)

/-- The draft laid flat as `ts` under `scopes`. -/
def flatDraft (scopes : List Lite.Scope) (ts : List Outline) (tag : Int) : Draft :=
  { scopes := (share scopes ts).1, roots := (share scopes ts).2, pendingVariantTag := tag }

variable {scopes : List Lite.Scope} {ts : List Outline}

/-- One more outline goes to the innermost scope. -/
theorem flatDraft_append (h : ∀ s ∈ scopes.head?, s.firstChildIndex ≤ ts.length) (t : Outline) (tag : Int) :
    flatDraft scopes (ts ++ [t]) tag = (flatDraft scopes ts tag).attach t := by
  cases scopes with
  | nil => rfl
  | cons s outer =>
    have hle := h s rfl
    simp only [flatDraft, share, Draft.attach, List.drop_append_of_le_length hle, List.take_append_of_le_length hle]

theorem flatDraft_openScope (name : Option String) (type : CaptureType) (pos : Nat) (vt tag : Int) :
    flatDraft (⟨name, pos, ts.length, type, vt⟩ :: scopes) ts tag =
      (flatDraft scopes ts tag).openScope name type pos vt := by
  simp only [flatDraft, share, Draft.openScope, List.drop_length, List.take_length]
  rfl

/-- The innermost scope becomes one outline of the next. -/
theorem flatDraft_closeScope {s : Lite.Scope} (hle : s.firstChildIndex ≤ ts.length)
    (hnested : ∀ s' ∈ scopes.head?, s'.firstChildIndex ≤ s.firstChildIndex) (pos : Nat) (tag : Int) :
    flatDraft scopes (ts.take s.firstChildIndex ++
        [.mk { scopeHead s with endOffset := pos } (ts.drop s.firstChildIndex)]) tag =
      (flatDraft (s :: scopes) ts tag).closeScope pos := by
  refine flatDraft_append (fun s' hs' => ?_) _ _
  rw [List.length_take, Nat.min_eq_left hle]
  exact hnested s' hs'

end Bbq.Index

/-! ## The builder -/

namespace Bbq.Lite.Builder

open Bbq.Index Bbq.Lib

def draft (b : Builder) : Draft :=
  flatDraft b.scopes (b.fields.map (captureOutline b.childBuf)) b.pendingVariantTag

variable {b : Builder}

theorem nested_head (h : b.Nested) : ∀ s ∈ b.scopes.head?, s.firstChildIndex ≤ b.fields.length := by
  intro s hs
  obtain ⟨rest, hscopes⟩ := List.head?_eq_some_iff.1 (Option.mem_def.1 hs)
  refine (List.pairwise_cons.1 h).1 _ ?_
  rw [hscopes]
  exact List.mem_cons_self

theorem draft_beginScope (b : Builder) (name : Option String) (pos : Nat) (t : CaptureType) (vt : Int) :
    (b.beginScope name pos t vt).draft =
      if vt ≠ -1 then b.draft.openScope name t pos vt
      else b.draft.disarm.openScope name t pos b.pendingVariantTag := by
  have hlen : b.fields.length = (b.fields.map (captureOutline b.childBuf)).length := (List.length_map _).symm
  unfold beginScope draft
  split
  · dsimp only
    rw [hlen, flatDraft_openScope]
  · dsimp only
    rw [hlen, flatDraft_openScope]
    rfl

theorem draft_addField (h : b.Nested) (name : Option String) (start stop : Nat) (t : CaptureType)
    (cv : Option ComputedValue) :
    (b.addField name start stop t cv).draft =
      b.draft.disarm.attach (.mk ⟨name, t, b.pendingVariantTag, start, stop, cv⟩ []) := by
  have hleaf : captureOutline b.childBuf ⟨name, start, stop, t, 0, -1, b.pendingVariantTag, cv⟩ =
      .mk ⟨name, t, b.pendingVariantTag, start, stop, cv⟩ [] := by
    unfold captureOutline
    cases b.childBuf.length with
    | zero => rfl
    | succ n =>
      rw [copyOne, if_neg (by simp)]
      rfl
  have hheads : ∀ s ∈ b.scopes.head?, s.firstChildIndex ≤ (b.fields.map (captureOutline b.childBuf)).length := by
    rw [List.length_map]
    exact nested_head h
  unfold addField draft
  rw [List.map_append, List.map_singleton, hleaf]
  exact flatDraft_append hheads _ _

/-- A closing scope's captures are all at the end of the buffer, also where there are none. -/
theorem endScope_cons (h : b.Nested) {scope : Scope} {rest : List Scope} (hscopes : b.scopes = scope :: rest) (pos : Nat) :
    b.endScope pos =
      { b with
        childBuf := b.childBuf ++ b.fields.drop scope.firstChildIndex
        fields := b.fields.take scope.firstChildIndex ++ [b.scopeCapture scope pos]
        scopes := rest } := by
  have hle := nested_head h scope (by rw [hscopes]; rfl)
  unfold endScope
  rw [hscopes]
  dsimp only
  by_cases hcount : b.childCount scope > 0
  · rw [if_pos hcount]
  · have hlen : b.fields.length ≤ scope.firstChildIndex := by
      unfold childCount at hcount
      omega
    rw [if_neg hcount, List.drop_of_length_le hlen, List.append_nil]

theorem draft_endScope (h : b.Nested) (hlay : b.Layered) (hkinds : ∀ s ∈ b.scopes, s.type = .struct ∨ s.type = .array)
    (hopen : 0 < b.scopes.length) (pos : Nat) : (b.endScope pos).draft = b.draft.closeScope pos := by
  cases hscopes : b.scopes with
  | nil =>
    rw [hscopes] at hopen
    exact absurd hopen (Nat.lt_irrefl _)
  | cons scope rest =>
    have hle := nested_head h scope (by rw [hscopes]; rfl)
    have hlay' := layered_endScope hlay pos
    rw [endScope_cons h hscopes] at hlay' ⊢
    have hbelow : ∀ src : List FieldCapture, src ⊆ b.fields → Below b.childBuf.length src :=
      fun src hsub fc hfc => hlay.2 fc (hsub hfc)
    have hmoved := captureOutline_append hlay.1 hlay'.1 (hbelow _ (List.drop_subset scope.firstChildIndex _))
    have hleft := captureOutline_append hlay.1 hlay'.1 (hbelow _ (List.take_subset scope.firstChildIndex _))
    have hcount : (b.scopeCapture scope pos).childCount = (b.fields.drop scope.firstChildIndex).length := by
      show b.childCount scope = _
      rw [childCount, List.length_drop]
      omega
    have hindex : b.fields.drop scope.firstChildIndex ≠ [] →
        (b.scopeCapture scope pos).buildBufIndex = b.childBuf.length := by
      intro hne
      refine if_pos ?_
      have := List.length_pos_iff.2 hne
      rw [List.length_drop] at this
      unfold childCount
      omega
    have hclosed := captureOutline_container hlay'.1 (hbelow _ (List.drop_subset scope.firstChildIndex _))
      (hkinds scope (by rw [hscopes]; exact List.mem_cons_self)) hcount hindex
    unfold draft
    rw [List.map_append, List.map_singleton, hclosed, hmoved, hleft, List.map_take, List.map_drop, hscopes]
    refine flatDraft_closeScope (by rw [List.length_map]; exact hle) ?_ pos _
    intro s' hs'
    obtain ⟨outer, rfl⟩ := List.head?_eq_some_iff.1 (Option.mem_def.1 hs')
    have hpair := (List.pairwise_cons.1 h).2
    rw [hscopes] at hpair
    exact (List.pairwise_cons.1 hpair).1 _ (by simp)

/-- What the interface keeps of a builder. -/
structure Good (b : Builder) : Prop where
  nested : b.Nested
  layered : b.Layered
  kinds : ∀ s ∈ b.scopes, s.type = .struct ∨ s.type = .array

theorem good_init : init.Good :=
  ⟨List.pairwise_singleton _ _, ⟨fun _ fc h => by simp [init] at h, fun fc h => by simp [init] at h⟩, by simp [init]⟩

theorem kinds_beginScope (h : ∀ s ∈ b.scopes, s.type = .struct ∨ s.type = .array) {t : CaptureType}
    (ht : t = .struct ∨ t = .array) (name : Option String) (pos : Nat) (vt : Int) :
    ∀ s ∈ (b.beginScope name pos t vt).scopes, s.type = .struct ∨ s.type = .array := by
  unfold beginScope
  intro s hs
  split at hs
  all_goals
    rcases List.mem_cons.1 hs with rfl | hs
    · exact ht
    · exact h s hs

theorem good_step (h : b.Good) (o : Op) : (b.step o).Good := by
  refine ⟨nested_step h.nested o, layered_step h.layered o, ?_⟩
  cases o with
  | beginStruct name pos => exact kinds_beginScope h.kinds (.inl rfl) name pos (-1)
  | beginVariant name pos tag => exact kinds_beginScope h.kinds (.inl rfl) name pos tag
  | beginArray name pos => exact kinds_beginScope h.kinds (.inr rfl) name pos (-1)
  | endStruct pos | endArray pos =>
    intro s hs
    refine h.kinds s ?_
    cases hscopes : b.scopes with
    | nil => simp [step, endScope, hscopes] at hs
    | cons scope rest =>
      rw [step, endScope_cons h.nested hscopes] at hs
      exact List.mem_cons_of_mem _ hs
  | addField name start stop t cv | setPendingVariantTag tag => exact h.kinds

/-- **Step lemma**: every call does to the draft what the draft's step does. -/
theorem draft_step (h : b.Good) (o : Index.Op) (hopen : o.bracket = .closes → 0 < b.scopes.length) :
    (Index.lite.step b o).draft = b.draft.step o := by
  cases o with
  | beginStruct name pos | beginArray name pos => exact draft_beginScope b name pos _ (-1)
  | beginVariant name pos arm =>
    refine (draft_beginScope b name pos .struct arm).trans (if_pos ?_)
    omega
  | endStruct pos | endArray pos => exact draft_endScope h.nested h.layered h.kinds (hopen rfl) pos
  | addField name start stop t v enc bits => exact draft_addField h.nested name start stop t v
  | _ => rfl

theorem depth_step (h : b.Good) (o : Index.Op) :
    (Index.lite.step b o).scopes.length = o.bracket.depth b.scopes.length := by
  have hbegin : ∀ name pos t vt, (b.beginScope name pos t vt).scopes.length = b.scopes.length + 1 := by
    intro name pos t vt
    unfold beginScope
    split <;> rfl
  have hend : ∀ pos, (b.endScope pos).scopes.length = b.scopes.length - 1 := by
    intro pos
    cases hscopes : b.scopes with
    | nil => simp [endScope, hscopes]
    | cons scope rest =>
      rw [endScope_cons h.nested hscopes]
      rfl
  cases o with
  | beginStruct name pos | beginArray name pos => exact hbegin name pos _ (-1)
  | beginVariant name pos arm => exact hbegin name pos .struct arm
  | endStruct pos | endArray pos => exact hend pos
  | _ => rfl

end Bbq.Lite.Builder

namespace Bbq.Index

open Bbq.Lib

/-- `s` is `b` some calls later, none of which closed a scope of `b`'s. -/
def FlatSince (b s : Lite.Builder) : Prop := ∃ level tag, b.Extends level tag s

theorem flatSince_step {b s : Lite.Builder} {o : Op} (h : FlatSince b s)
    (hopen : o.bracket = .closes → b.scopes.length < s.scopes.length) : FlatSince b (lite.step s o) := by
  obtain ⟨level, tag, h⟩ := h
  have hlevel : o.bracket = .closes → ∃ n, level = n + 1 := by
    intro hcloses
    obtain ⟨opened, more, buf, hlen, -, rfl⟩ := h
    have := hopen hcloses
    rw [List.length_append] at this
    exact ⟨level - 1, by omega⟩
  cases o with
  | endStruct pos | endArray pos =>
    obtain ⟨n, rfl⟩ := hlevel rfl
    exact ⟨n, tag, Lite.Builder.extends_endScope h pos⟩
  | beginStruct name pos | beginArray name pos =>
    exact ⟨level + 1, _, Lite.Builder.extends_beginScope h name pos _ (-1)⟩
  | beginVariant name pos arm => exact ⟨level + 1, _, Lite.Builder.extends_beginScope h name pos .struct arm⟩
  | addField name start stop t v enc bits =>
    have hstep : Lite.tagStep b.scopes.length level tag (.addField name start stop t v) = some (level, -1) := rfl
    exact ⟨level, -1, Lite.Builder.extends_step h hstep⟩
  | setPendingVariantTag armed =>
    have hstep : Lite.tagStep b.scopes.length level tag (.setPendingVariantTag armed) = some (level, armed) := rfl
    exact ⟨level, armed, Lite.Builder.extends_step h hstep⟩
  | _ => exact ⟨level, tag, h⟩

/-- **The flat builder** is a view of the draft. -/
def flatBuilder : Implements Op.bracket lite Draft.step Draft.keepTag where
  view := Lite.Builder.draft
  depth b := b.scopes.length
  Good := Lite.Builder.Good
  Since := FlatSince
  good_step {s o} h := by
    show ((o.lite.map s.step).getD s).Good
    cases o.lite with
    | none => exact h
    | some o => exact Lite.Builder.good_step h o
  depth_step h := Lite.Builder.depth_step h _
  view_step h hopen := Lite.Builder.draft_step h _ hopen
  since_refl s := ⟨0, _, s.extends_self⟩
  since_step h hopen := flatSince_step h hopen
  since_depth h := by
    obtain ⟨level, tag, opened, more, buf, -, -, rfl⟩ := h
    simp
  good_restore hb h := by
    obtain ⟨level, tag, h⟩ := h
    refine (congrArg Lite.Builder.Good (Lite.Builder.restore_extends h)).mpr ?_
    exact ⟨hb.nested, hb.layered, hb.kinds⟩
  depth_restore h := by
    obtain ⟨level, tag, h⟩ := h
    exact congrArg (fun b => b.scopes.length) (Lite.Builder.restore_extends h)
  view_restore {b s} h := by
    obtain ⟨level, tag, h⟩ := h
    have htag : s.pendingVariantTag = tag := by
      obtain ⟨opened, more, buf, -, -, rfl⟩ := h
      rfl
    subst htag
    exact congrArg Lite.Builder.draft (Lite.Builder.restore_extends h)
  since_restore {a b s} h hs := by
    obtain ⟨_, _, hs⟩ := hs
    obtain ⟨level, _, opened, more, buf, hlen, hfirst, hb⟩ := h
    refine (congrArg (FlatSince a) (Lite.Builder.restore_extends hs)).mpr ?_
    exact ⟨level, _, opened, more, buf, hlen, hfirst, by rw [hb]⟩

/-- What the C reader hands out is the draft's index. -/
theorem finish_flat {b : Lite.Builder} (hclosed : b.scopes.length = 0) (pos : Nat) :
    (b.finish pos).map resolvedOutline = b.draft.finish pos := by
  have hscopes : b.scopes = [] := List.length_eq_zero_iff.1 hclosed
  unfold Lite.Builder.finish Lite.Builder.draft Draft.finish
  rw [hscopes]
  cases hfields : b.fields with
  | nil => rfl
  | cons fc fs =>
    rw [copyToArena_eq_map]
    show some (Outline.mk _ (resolvedOutlines _)) = _
    rw [resolvedOutlines_eq, List.map_map]
    rfl

end Bbq.Index
