import Bbq.Peg.CRuntime

/-!
# The memo of peg_skip

* Where `skip` ends, and with which line and column, is made out by where it starts (`skip_at`), so what it found once
  is what it finds again.
* `Tracked` is what holds of every state of a parser: its marks and its memo are of places of the input.
* **`skips_agree_iff`**: the skips agree where no comment form opens with the empty string and the forms past the
  fourth, which the table has no room for, are covered.
-/

namespace Bbq.Peg

open Bbq.Lib

/-! ## Skipping looks at the position only -/

section Places

variable {σ : Type} {s t : State σ}

theorem advance_at (h : s.pos = t.pos) : s.advance.pos = t.advance.pos := by
  unfold State.advance
  rw [h]
  split
  · exact h
  · rfl

theorem advances_at (h : s.pos = t.pos) (n : Nat) : (s.advances n).pos = (t.advances n).pos := by
  induction n generalizing s t with
  | zero => exact h
  | succ n ih => exact ih (advance_at h)

theorem peekAt_at (h : s.pos = t.pos) (str : List UInt8) : peekAt str s = peekAt str t := by
  unfold peekAt
  rw [h]

theorem left_at (h : s.pos = t.pos) : s.left = t.left := by
  unfold State.left
  rw [h]

/-- The depth, and the place. -/
def inside (a : Nat × State σ) : Nat × Mark := (a.1, a.2.pos)

theorem structuredRound_at (a b : Nat × State σ) (h : inside a = inside b) :
    (structuredRound a).map (Sum.map inside State.pos) = (structuredRound b).map (Sum.map inside State.pos) := by
  obtain ⟨depth, s⟩ := a
  obtain ⟨depth', t⟩ := b
  obtain ⟨hdepth, hpos⟩ := Prod.mk.inj h
  dsimp only at hdepth hpos
  subst hdepth
  cases depth with
  | zero => exact congrArg (fun m => some (Sum.inr m)) hpos
  | succ depth =>
    rw [structuredRound, structuredRound, hpos]
    cases hrest : t.pos.rest with
    | nil => exact congrArg (fun m => some (Sum.inr m)) hpos
    | cons c rest =>
      have hone := advance_at hpos
      have hbody := advance_at (advances_at hpos (stringBody rest + 1))
      simp only [Option.map_some, Sum.map_inl, apply_ite inside]
      simp only [inside, hone, hbody]

theorem commentRound_at (spec : CommentDef) (a b : Nat × State σ) (h : inside a = inside b) :
    (commentRound spec a).map (Sum.map inside State.pos) =
      (commentRound spec b).map (Sum.map inside State.pos) := by
  obtain ⟨depth, s⟩ := a
  obtain ⟨depth', t⟩ := b
  obtain ⟨hdepth, hpos⟩ := Prod.mk.inj h
  dsimp only at hdepth hpos
  subst hdepth
  cases depth with
  | zero => exact congrArg (fun m => some (Sum.inr m)) hpos
  | succ depth =>
    rw [commentRound, commentRound, hpos]
    cases hrest : t.pos.rest with
    | nil => exact congrArg (fun m => some (Sum.inr m)) hpos
    | cons c rest =>
      have hone := advance_at hpos
      have hopener := advances_at hpos (cString spec.opener).length
      have hcloser := advances_at hpos (cString spec.closer).length
      simp only [Option.map_some, Sum.map_inl, apply_ite inside, peekAt_at hpos]
      simp only [inside, hone, hopener, hcloser]

/-- What a try of a form came to, and the place. -/
def found (r : Bool × State σ) : Bool × Mark := (r.1, r.2.pos)

theorem skipComment_at (fuel : Nat) (spec : CommentDef) (h : s.pos = t.pos) :
    (skipComment fuel spec s).map found = (skipComment fuel spec t).map found := by
  unfold skipComment
  rw [peekAt_at h]
  by_cases hopen : peekAt spec.opener t = true
  · rw [if_pos hopen, if_pos hopen, Option.map_map, Option.map_map]
    have hstart : inside (1, s.advances (cString spec.opener).length) = inside (1, t.advances (cString spec.opener).length) :=
      Prod.ext rfl (advances_at h _)
    have hround : ∀ a b : Nat × State σ, inside a = inside b →
        ((if spec.structured then structuredRound else commentRound spec) a).map (Sum.map inside State.pos) =
          ((if spec.structured then structuredRound else commentRound spec) b).map (Sum.map inside State.pos) := by
      intro a b hab
      split
      · exact structuredRound_at a b hab
      · exact commentRound_at spec a b hab
    have hloop := loop_congr hround fuel hstart
    have htrue := congrArg (Option.map fun m : Mark => (true, m)) hloop
    rwa [Option.map_map, Option.map_map] at htrue
  · rw [if_neg hopen, if_neg hopen]
    exact congrArg (fun m => some (false, m)) h

theorem skipComments_at (fuel : Nat) (specs : List CommentDef) (h : s.pos = t.pos) :
    (skipComments fuel specs s).map found = (skipComments fuel specs t).map found := by
  induction specs generalizing s t with
  | nil => exact congrArg (fun m => some (false, m)) h
  | cons spec specs ih =>
    have hspec := skipComment_at fuel spec h
    rw [skipComments, skipComments]
    cases hs : skipComment fuel spec s with
    | none =>
      rw [hs, Option.map_none, eq_comm, Option.map_eq_none_iff] at hspec
      rw [hspec]
    | some r =>
      rw [hs, Option.map_some, eq_comm, Option.map_eq_some_iff] at hspec
      obtain ⟨r', hr', hfound⟩ := hspec
      obtain ⟨b, s'⟩ := r
      obtain ⟨b', t'⟩ := r'
      obtain ⟨hb, hpos⟩ := Prod.mk.inj hfound
      dsimp only at hb hpos
      subst hb
      rw [hr', Option.bind_some, Option.bind_some]
      cases b' with
      | true => exact congrArg (fun m => some (true, m)) hpos.symm
      | false => exact ih hpos.symm

theorem skipRound_at (G : Grammar) (fuel : Nat) (s t : State σ) (h : s.pos = t.pos) :
    (skipRound G fuel s).map (Sum.map State.pos State.pos) = (skipRound G fuel t).map (Sum.map State.pos State.pos) := by
  unfold skipRound spanWhile
  rw [h]
  cases spanOf G.ignores t.pos.rest with
  | none => rfl
  | some n =>
    rw [Option.map_some, Option.map_some, Option.bind_some, Option.bind_some]
    have hspan := advances_at h n
    have hcomments := skipComments_at fuel G.comments hspan
    cases hs : skipComments fuel G.comments (s.advances n) with
    | none =>
      rw [hs, Option.map_none, eq_comm, Option.map_eq_none_iff] at hcomments
      rw [hcomments]
      rfl
    | some r =>
      rw [hs, Option.map_some, eq_comm, Option.map_eq_some_iff] at hcomments
      obtain ⟨r', hr', hfound⟩ := hcomments
      obtain ⟨b, s'⟩ := r
      obtain ⟨b', t'⟩ := r'
      obtain ⟨hb, hpos⟩ := Prod.mk.inj hfound
      dsimp only at hb hpos
      subst hb
      rw [hr', Option.map_some, Option.map_some, Option.map_some, Option.map_some, left_at h, left_at hspan]
      dsimp only
      split
      · exact congrArg (fun m => some (Sum.inl m)) hpos.symm
      · exact congrArg (fun m => some (Sum.inr m)) hpos.symm

theorem skip_at (G : Grammar) (fuel : Nat) (h : s.pos = t.pos) :
    (skip G fuel s).map State.pos = (skip G fuel t).map State.pos :=
  loop_congr (skipRound_at G fuel) fuel h

end Places

/-! ## One form, and all of them -/

section Forms

variable {G : Grammar} {s s' : State Unit} {wsTab : UInt8 → Bool}

theorem take_cString (str : List UInt8) : str.take (cString str).length = cString str :=
  (List.prefix_iff_eq_take.mp (List.takeWhile_prefix _)).symm

theorem pegPeekAtN_cString (str : List UInt8) (s : State Unit) :
    pegPeekAtN str (cString str).length s = peekAt str s := by
  rw [pegPeekAtN, take_cString, peekAt]

/-- The byte that is compared first is the one the form opens with. -/
theorem headD_cString (str : List UInt8) : str.headD 0 = (cString str).headD 0 := by
  cases str with
  | nil => rfl
  | cons c str =>
    unfold cString
    rw [List.takeWhile_cons]
    by_cases hc : c = 0
    · subst hc
      rfl
    · rw [if_pos (by simpa using hc)]
      rfl

theorem lineClose_iff (str : List UInt8) :
    (cString str).length = 1 ∧ str.headD 0 = '\n'.toUInt8 ↔ cString str = ['\n'.toUInt8] := by
  rw [headD_cString]
  constructor
  · rintro ⟨hlength, hhead⟩
    obtain ⟨c, hc⟩ := List.length_eq_one_iff.mp hlength
    rw [hc] at hhead ⊢
    exact congrArg (fun c => [c]) hhead
  · intro h
    rw [h]
    exact ⟨rfl, rfl⟩

theorem pegCommentRound_eq (spec : CommentDef) (a : Nat × State Unit) :
    pegCommentRound (pegCommentSpec spec) a = commentRound spec a := by
  obtain ⟨depth, s⟩ := a
  cases depth with
  | zero => rfl
  | succ depth =>
    rw [pegCommentRound, commentRound]
    cases s.pos.rest with
    | nil => rfl
    | cons c rest =>
      simp only [pegCommentSpec, pegPeekAtN_cString, lineClose_iff]

/-- **A form is tried the same way.** -/
theorem pegSkipComment_eq (fuel : Nat) (spec : CommentDef) (s : State Unit) :
    pegSkipComment fuel (pegCommentSpec spec) s = skipComment fuel spec s := by
  have hround : pegCommentRound (pegCommentSpec spec) = commentRound spec := funext (pegCommentRound_eq spec)
  unfold pegSkipComment skipComment
  rw [hround]
  simp only [pegCommentSpec, pegPeekAtN_cString]
  rfl

theorem skipComment_closed {spec : CommentDef} (hclosed : peekAt spec.opener s = false) (fuel : Nat) :
    skipComment fuel spec s = some (false, s) := by
  rw [skipComment, if_neg (by rw [hclosed]; exact Bool.false_ne_true)]

/-- **The first byte rejects only what does not open here.** -/
theorem closed_of_rejects {spec : CommentDef} (hopener : cString spec.opener ≠ [])
    (hrejects : pegRejects (pegCommentSpec spec) s = true) : peekAt spec.opener s = false := by
  unfold pegRejects at hrejects
  cases hrest : s.pos.rest with
  | nil =>
    rw [hrest] at hrejects
    exact absurd hrejects Bool.false_ne_true
  | cons c rest =>
    rw [hrest] at hrejects
    have hne : c ≠ spec.opener.headD 0 := of_decide_eq_true hrejects
    rw [headD_cString] at hne
    obtain ⟨b, opener, hopen⟩ := List.exists_cons_of_ne_nil hopener
    rw [hopen] at hne
    rw [peekAt, hopen, hrest, ← Bool.not_eq_true, List.isPrefixOf_iff_prefix]
    intro hle
    exact hne (List.cons_prefix_cons.mp hle).1.symm

/-- The two loops over the forms of the table. -/
theorem pegSkipComments_eq {specs : List CommentDef} (hopeners : ∀ spec ∈ specs, cString spec.opener ≠ []) (fuel : Nat)
    (s : State Unit) : pegSkipComments fuel (specs.map pegCommentSpec) s = skipComments fuel specs s := by
  induction specs generalizing s with
  | nil => rfl
  | cons spec specs ih =>
    have ih := ih fun spec hspec => hopeners spec (List.mem_cons_of_mem _ hspec)
    rw [List.map_cons, pegSkipComments, skipComments]
    by_cases hrejects : pegRejects (pegCommentSpec spec) s = true
    · rw [if_pos hrejects, skipComment_closed (closed_of_rejects (hopeners spec List.mem_cons_self) hrejects),
        Option.bind_some]
      exact ih s
    · rw [if_neg hrejects, pegSkipComment_eq]
      cases skipComment fuel spec s with
      | none => rfl
      | some r =>
        obtain ⟨b, s'⟩ := r
        cases b with
        | true => rfl
        | false => exact ih s'

/-- Where no form opens, none is skipped. -/
theorem skipComments_closed {specs : List CommentDef} (hclosed : ∀ spec ∈ specs, peekAt spec.opener s = false)
    (fuel : Nat) : skipComments fuel specs s = some (false, s) := by
  induction specs with
  | nil => rfl
  | cons spec specs ih =>
    rw [skipComments, skipComment_closed (hclosed spec List.mem_cons_self), Option.bind_some]
    exact ih fun spec hspec => hclosed spec (List.mem_cons_of_mem _ hspec)

/-- What is found opened here. -/
theorem skipComment_opens {spec : CommentDef} {fuel : Nat} {b : Bool}
    (h : skipComment fuel spec s = some (b, s')) : b = peekAt spec.opener s ∧ (b = false → s' = s) := by
  unfold skipComment at h
  by_cases hopen : peekAt spec.opener s = true
  · rw [if_pos hopen] at h
    obtain ⟨t, -, ht⟩ := Option.map_eq_some_iff.mp h
    obtain ⟨rfl, -⟩ := Prod.mk.inj ht
    exact ⟨hopen.symm, fun hfalse => by cases hfalse⟩
  · rw [if_neg hopen] at h
    obtain ⟨rfl, rfl⟩ := Prod.mk.inj (Option.some.inj h)
    exact ⟨(Bool.not_eq_true _ ▸ hopen).symm, fun _ => rfl⟩

/-- The forms that are tried first. -/
theorem skipComments_append (first rest : List CommentDef) (fuel : Nat) (s : State Unit) :
    skipComments fuel (first ++ rest) s =
      (skipComments fuel first s).bind fun
        | (true, s') => some (true, s')
        | (false, s') => skipComments fuel rest s' := by
  induction first generalizing s with
  | nil => rfl
  | cons spec first ih =>
    rw [List.cons_append, skipComments, skipComments, Option.bind_assoc]
    cases skipComment fuel spec s with
    | none => rfl
    | some r =>
      obtain ⟨b, s'⟩ := r
      cases b with
      | true => rfl
      | false => exact ih s'

/-- Nothing was found: no form opens here. -/
theorem closed_of_skipComments {specs : List CommentDef} {fuel : Nat}
    (h : skipComments fuel specs s = some (false, s')) :
    s' = s ∧ ∀ spec ∈ specs, peekAt spec.opener s = false := by
  induction specs with
  | nil =>
    obtain ⟨-, rfl⟩ := Prod.mk.inj (Option.some.inj h)
    exact ⟨rfl, fun spec hspec => absurd hspec List.not_mem_nil⟩
  | cons spec specs ih =>
    rw [skipComments, Option.bind_eq_some_iff] at h
    obtain ⟨⟨b, t⟩, hspec, h⟩ := h
    obtain ⟨hb, hsame⟩ := skipComment_opens hspec
    cases b with
    | true => cases (Prod.mk.inj (Option.some.inj h)).1
    | false =>
      obtain rfl := hsame rfl
      obtain ⟨rfl, hspecs⟩ := ih h
      exact ⟨rfl, List.forall_mem_cons.mpr ⟨hb.symm, hspecs⟩⟩

/-- What stands behind a span ends it. -/
theorem spanOf_stops {holds : UInt8 → Option Bool} {cs : List UInt8} {n : Nat} {c : UInt8} {rest : List UInt8}
    (h : spanOf holds cs = some n) (hrest : cs.drop n = c :: rest) : holds c = some false := by
  induction cs generalizing n with
  | nil =>
    rw [List.drop_nil] at hrest
    exact absurd hrest nofun
  | cons d cs ih =>
    rw [spanOf, Option.bind_eq_some_iff] at h
    obtain ⟨b, hb, h⟩ := h
    cases b with
    | true =>
      obtain ⟨m, hm, rfl⟩ := Option.map_eq_some_iff.mp h
      exact ih hm hrest
    | false =>
      obtain rfl := Option.some.inj h
      obtain ⟨rfl, -⟩ := List.cons.inj hrest
      exact hb

theorem spanWhile_stops {holds : UInt8 → Option Bool} {c : UInt8} {rest : List UInt8}
    (h : spanWhile holds s = some s') (hrest : s'.pos.rest = c :: rest) : holds c = some false := by
  obtain ⟨n, hn, rfl⟩ := Option.map_eq_some_iff.mp h
  rw [State.rest_advances] at hrest
  exact spanOf_stops hn hrest

/-- **A covered form does not open** where the first four do not and no byte is skipped. -/
theorem closed_of_covered {spec : CommentDef} (hcovered : Covered G spec) (hopener : cString spec.opener ≠ [])
    (hstop : ∀ c rest, s.pos.rest = c :: rest → G.ignores c = some false)
    (hfirst : ∀ first ∈ G.comments.take pegMaxComments, peekAt first.opener s = false) :
    peekAt spec.opener s = false := by
  rw [← Bool.not_eq_true]
  intro hopen
  have hle := List.isPrefixOf_iff_prefix.mp hopen
  rcases hcovered with hignored | ⟨first, hmem, hstarts⟩
  · obtain ⟨c, opener, hc⟩ := List.exists_cons_of_ne_nil hopener
    rw [hc] at hle hignored
    obtain ⟨rest, hrest⟩ := hle
    rw [List.headD_cons, hstop c (opener ++ rest) hrest.symm] at hignored
    exact absurd (Option.some.inj hignored) Bool.false_ne_true
  · have hfirst := hfirst first hmem
    rw [← Bool.not_eq_true] at hfirst
    exact hfirst (List.isPrefixOf_iff_prefix.mpr (hstarts.trans hle))

/-- **A round** of `peg_skip` is one of `skip`. -/
theorem pegSkipRound_eq (hws : ∀ c, G.ignores c = some (wsTab c))
    (hopeners : ∀ spec ∈ G.comments, cString spec.opener ≠ [])
    (hcovered : ∀ spec ∈ G.comments.drop pegMaxComments, Covered G spec) (fuel : Nat) (s : State Unit) :
    pegSkipRound wsTab ((G.comments.take pegMaxComments).map pegCommentSpec) fuel s = skipRound G fuel s := by
  have htab : (fun c => some (wsTab c)) = G.ignores := funext fun c => (hws c).symm
  unfold pegSkipRound skipRound
  rw [htab]
  cases hspan : spanWhile G.ignores s with
  | none => rfl
  | some s₁ =>
    rw [Option.bind_some, Option.bind_some,
      pegSkipComments_eq (fun spec hspec => hopeners spec (List.mem_of_mem_take hspec))]
    have hall : skipComments fuel G.comments s₁ = skipComments fuel (G.comments.take pegMaxComments) s₁ := by
      conv_lhs => rw [← List.take_append_drop pegMaxComments G.comments, skipComments_append]
      cases hfirst : skipComments fuel (G.comments.take pegMaxComments) s₁ with
      | none => rfl
      | some r =>
        obtain ⟨b, s₂⟩ := r
        cases b with
        | true => rfl
        | false =>
          obtain ⟨rfl, hclosed⟩ := closed_of_skipComments hfirst
          exact skipComments_closed (fun spec hspec => closed_of_covered (hcovered spec hspec)
            (hopeners spec (List.mem_of_mem_drop hspec)) (fun c rest => spanWhile_stops hspan) hclosed) fuel
    rw [hall]

end Forms

/-! ## Setup -/

section Setup

variable {G : Grammar} {input : List UInt8} {p p₀ : PegState}

theorem foldl_pegAddComment (specs : List CommentDef) (p : PegState) :
    specs.foldl pegAddComment p =
      { p with comments := p.comments ++ (specs.take (pegMaxComments - p.comments.length)).map pegCommentSpec } := by
  induction specs generalizing p with
  | nil => rw [List.foldl_nil, List.take_nil, List.map_nil, List.append_nil]
  | cons spec specs ih =>
    rw [List.foldl_cons, ih]
    unfold pegAddComment
    by_cases hroom : p.comments.length < pegMaxComments
    · obtain ⟨room, hroom'⟩ : ∃ room, pegMaxComments - p.comments.length = room + 1 :=
        ⟨pegMaxComments - p.comments.length - 1, by omega⟩
      have hnext : pegMaxComments - (p.comments ++ [pegCommentSpec spec]).length = room := by
        rw [List.length_append, List.length_singleton]
        omega
      rw [if_pos hroom]
      dsimp only
      rw [hroom', hnext, List.take_succ_cons, List.map_cons, List.append_assoc, List.singleton_append]
    · have hfull : pegMaxComments - p.comments.length = 0 := by omega
      rw [if_neg hroom, hfull, List.take_zero, List.take_zero]

/-- A parser that is set up. -/
def ready (G : Grammar) (input : List UInt8) : PegState :=
  { pegInit input with
    wsTab := fun c => (G.ignores c).getD false
    comments := (G.comments.take pegMaxComments).map pegCommentSpec }

/-- **Setup** comes to an end if the predicate does for every byte. -/
theorem parserInit_iff :
    parserInit G input = some p₀ ↔ (∀ c, (G.ignores c).isSome) ∧ p₀ = ready G input := by
  unfold parserInit setupSkip
  by_cases hignore : G.ignore.isSome = true
  · rw [if_pos hignore]
    unfold pegSetWhitespace
    by_cases hends : ∀ c : Fin 256, (G.ignores (UInt8.ofFin c)).isSome
    · rw [if_pos hends, Option.map_some, foldl_pegAddComment, Option.some_inj, eq_comm]
      exact ⟨fun h => ⟨fun c => hends c.toFin, h⟩, fun h => h.2⟩
    · rw [if_neg hends, Option.map_none]
      exact ⟨nofun, fun h => absurd (fun c => h.1 _) hends⟩
  · have hnone : G.ignore = none := Option.not_isSome_iff_eq_none.mp hignore
    have hfalse : ∀ c, G.ignores c = some false := by
      intro c
      rw [Grammar.ignores, hnone]
    rw [if_neg hignore, Option.map_some, foldl_pegAddComment, Option.some_inj, eq_comm, ready]
    simp only [hfalse]
    exact ⟨fun h => ⟨fun _ => rfl, h⟩, fun h => h.2⟩

end Setup

/-! ## Runs -/

section Runs

variable {G : Grammar} {input : List UInt8} {p p' p₀ : PegState}

/-- The cursor comes by `m`. -/
def On (input : List UInt8) (m : Mark) : Prop := ∃ n, m = ((pegInit input).cursor.advances n).pos

theorem On.start (input : List UInt8) : On input (pegInit input).cursor.pos := ⟨0, rfl⟩

theorem On.slides {s s' : State Unit} (h : On input s.pos) (hslides : Slides s s') : On input s'.pos := by
  obtain ⟨n, hn⟩ := h
  obtain ⟨m, rfl⟩ := hslides
  exact ⟨n + m, by rw [advances_at hn m, State.advances_advances]⟩

theorem advances_end {s : State Unit} (h : s.pos.rest = []) (n : Nat) : s.advances n = s := by
  induction n with
  | zero => rfl
  | succ n ih =>
    have hstay : s.advance = s := by
      unfold State.advance
      rw [h]
    rw [State.advances, hstay, ih]

/-- **The line and the column are those of the place.** -/
theorem On.unique {m m' : Mark} (h : On input m) (h' : On input m') (hrest : m.rest = m'.rest) : m = m' := by
  obtain ⟨n, rfl⟩ := h
  obtain ⟨n', rfl⟩ := h'
  -- the later one is reached from the earlier one, and what is left has the same length
  have hlater : ∀ n d, ((pegInit input).cursor.advances n).pos.rest = ((pegInit input).cursor.advances (n + d)).pos.rest →
      ((pegInit input).cursor.advances n).pos = ((pegInit input).cursor.advances (n + d)).pos := by
    intro n d hrest
    rw [← State.advances_advances] at hrest ⊢
    rw [State.rest_advances d] at hrest
    have hlength := congrArg List.length hrest
    rw [List.length_drop] at hlength
    cases d with
    | zero => rfl
    | succ d =>
      have hend : ((pegInit input).cursor.advances n).pos.rest = [] := List.eq_nil_of_length_eq_zero (by omega)
      rw [advances_end hend]
  rcases Nat.le_total n n' with hle | hle
  · obtain ⟨d, rfl⟩ := Nat.exists_eq_add_of_le hle
    exact hlater n d hrest
  · obtain ⟨d, rfl⟩ := Nat.exists_eq_add_of_le hle
    exact (hlater n' d hrest.symm).symm

/-- **What holds of every state of a parser.** -/
structure Tracked (G : Grammar) (input : List UInt8) (p : PegState) : Prop where
  wsTab : ∀ c, G.ignores c = some (p.wsTab c)
  comments : p.comments = (G.comments.take pegMaxComments).map pegCommentSpec
  cursor : On input p.cursor.pos
  marks : ∀ m ∈ p.marks, On input m
  /-- The memo is what a skip found. -/
  memo : ∀ skipFrom skipTo, p.memo = some (skipFrom, skipTo) → ∃ s s' : State Unit, On input s.pos ∧ s.pos.rest = skipFrom ∧
    Settles (fun n => skip G n s) s' ∧ s'.pos = skipTo

theorem tracked_ready (hends : ∀ c, (G.ignores c).isSome) : Tracked G input (ready G input) where
  wsTab c := by
    obtain ⟨b, hb⟩ := Option.isSome_iff_exists.mp (hends c)
    change G.ignores c = some ((G.ignores c).getD false)
    rw [hb, Option.getD_some]
  comments := rfl
  cursor := On.start input
  marks m hm := absurd hm List.not_mem_nil
  memo _ _ h := absurd h nofun

/-- Another cursor. -/
theorem Tracked.move (hp : Tracked G input p) {s : State Unit} (hs : On input s.pos) :
    Tracked G input { p with cursor := s } := ⟨hp.wsTab, hp.comments, hs, hp.marks, hp.memo⟩

theorem Tracked.advances (hp : Tracked G input p) (n : Nat) :
    Tracked G input { p with cursor := p.cursor.advances n } := hp.move (hp.cursor.slides ⟨n, rfl⟩)

/-- **An operation** keeps it. -/
theorem Tracked.perform (hp : Tracked G input p) (op : CursorOp) : Tracked G input (p.perform op) := by
  cases op with
  | matchN str =>
    rw [PegState.perform, PegState.matchN]
    split
    · exact hp
    · split
      · exact hp.advances _
      · exact hp
  | matchCharset fn =>
    rw [PegState.perform, PegState.matchCharset]
    split
    · exact hp
    · split
      · exact hp
      · split
        · exact hp.advances 1
        · exact hp
  | spanChars fn => exact hp.advances _
  | advance => exact hp.advances 1
  | save => exact ⟨hp.wsTab, hp.comments, hp.cursor, List.forall_mem_cons.mpr ⟨hp.cursor, hp.marks⟩, hp.memo⟩
  | restore m =>
    rw [PegState.perform]
    split
    · next hm => exact hp.move (hp.marks m hm)
    · exact hp
  | halt => exact ⟨hp.wsTab, hp.comments, hp.cursor, hp.marks, hp.memo⟩

/-- Two skips from one place end at one place. -/
theorem settles_at {s t s' t' : State Unit} (h : s.pos = t.pos) (hs : Settles (fun n => skip G n s) s')
    (ht : Settles (fun n => skip G n t) t') : s'.pos = t'.pos := by
  refine Settles.unique (hs.map State.pos) ?_
  have hpos := ht.map State.pos
  simp only [← skip_at G _ h] at hpos
  exact hpos

theorem pegSkip_hit {skipTo : Mark} (h : p.memo = some (p.cursor.pos.rest, skipTo)) (fuel : Nat) :
    pegSkip fuel p = some { p with cursor := p.cursor.restore skipTo } := by
  unfold pegSkip
  rw [h]
  exact if_pos rfl

theorem pegSkip_miss (h : ∀ skipTo, p.memo ≠ some (p.cursor.pos.rest, skipTo)) (fuel : Nat) :
    pegSkip fuel p = pegSkipMiss fuel p := by
  unfold pegSkip
  split
  · next skipFrom skipTo hmemo =>
    refine if_neg fun hhit => h skipTo ?_
    rw [hmemo, hhit]
  · rfl

/-- **A skip** ends where the plain one does, whether the memo has the place or not. -/
theorem Tracked.skip (hp : Tracked G input p) (hopeners : ∀ spec ∈ G.comments, cString spec.opener ≠ [])
    (hcovered : ∀ spec ∈ G.comments.drop pegMaxComments, Covered G spec) :
    ∃ p' s', Settles (fun n => pegSkip n p) p' ∧ Settles (fun n => Peg.skip G n p.cursor) s' ∧
      p'.cursor.pos = s'.pos ∧ Tracked G input p' := by
  have hends : ∀ c, (G.ignores c).isSome := by
    intro c
    rw [hp.wsTab c]
    rfl
  obtain ⟨s', hs'⟩ := skip_ends hopeners hends p.cursor
  obtain ⟨N, hN⟩ := hs'.ends
  have hslides := skip_slides hN
  have hmiss : Settles (fun n => pegSkipMiss n p)
      { p with cursor := s', memo := some (p.cursor.pos.rest, s'.pos) } := by
    have hround : ∀ n, pegSkipRound p.wsTab p.comments n = skipRound G n := by
      intro n
      rw [hp.comments]
      exact funext (pegSkipRound_eq hp.wsTab hopeners hcovered n)
    unfold pegSkipMiss
    simp only [hround]
    exact hs'.map _
  have hmissed : Tracked G input { p with cursor := s', memo := some (p.cursor.pos.rest, s'.pos) } := by
    refine ⟨hp.wsTab, hp.comments, hp.cursor.slides hslides, hp.marks, ?_⟩
    intro skipFrom skipTo hmemo
    obtain ⟨rfl, rfl⟩ := Prod.mk.inj (Option.some.inj hmemo)
    exact ⟨p.cursor, s', hp.cursor, rfl, hs', rfl⟩
  by_cases hhit : ∃ skipTo, p.memo = some (p.cursor.pos.rest, skipTo)
  · obtain ⟨skipTo, hmemo⟩ := hhit
    obtain ⟨s, t, hon, hfrom, ht, rfl⟩ := hp.memo _ skipTo hmemo
    simp only [pegSkip_hit hmemo]
    have hsame := hon.unique hp.cursor hfrom
    have hplace := settles_at hsame ht hs'
    obtain ⟨M, hM⟩ := ht.ends
    have hto : On input t.pos := hon.slides (skip_slides hM)
    exact ⟨_, s', .const _, hs', hplace, hp.move hto⟩
  · simp only [pegSkip_miss (not_exists.mp hhit)]
    exact ⟨_, s', hmiss, hs', rfl, hmissed⟩

/-- **A run.** -/
theorem tracked_reached (hends : ∀ c, (G.ignores c).isSome)
    (hopeners : ∀ spec ∈ G.comments, cString spec.opener ≠ [])
    (hcovered : ∀ spec ∈ G.comments.drop pegMaxComments, Covered G spec)
    (hp : PegState.Reached (ready G input) p) : Tracked G input p := by
  induction hp with
  | start => exact tracked_ready hends
  | perform op _ ih => exact ih.perform op
  | skip _ hskip ih =>
    obtain ⟨p', s', hp', -, -, htracked⟩ := ih.skip hopeners hcovered
    rwa [hskip.unique hp']

end Runs

/-! ## Where they do not agree -/

section Apart

variable {G : Grammar} {s s' : State Unit} {fuel : Nat}

/-- At the end of the input, a form that opens with the empty string is found. -/
theorem skipComments_open {specs : List CommentDef} {spec : CommentDef} (hspec : spec ∈ specs)
    (hopen : peekAt spec.opener s = true) {b : Bool} (h : skipComments fuel specs s = some (b, s')) : b = true := by
  cases b with
  | true => rfl
  | false =>
    have hclosed := (closed_of_skipComments h).2 spec hspec
    rw [hopen] at hclosed
    cases hclosed

/-- Nothing is skipped in front of a byte that is none to skip. -/
theorem spanWhile_stay {holds : UInt8 → Option Bool} (hstop : ∀ c rest, s.pos.rest = c :: rest → holds c = some false) :
    spanWhile holds s = some s := by
  unfold spanWhile
  cases hrest : s.pos.rest with
  | nil => rfl
  | cons c rest =>
    rw [spanOf, hstop c rest hrest, Option.bind_some]
    rfl

/-- **A form that opens with the empty string** is found again and again at the end of the input. -/
theorem skip_open (hopen : ∃ spec ∈ G.comments, cString spec.opener = []) (hend : s.pos.rest = []) :
    skip G fuel s ≠ some s' := by
  intro h
  refine loop_inv (P := fun s => s.pos.rest = []) (Q := fun _ => False) ?_ ?_ fuel s s' hend h
  · intro t t' ht hround
    obtain ⟨n, hn⟩ := skipRound_slides hround
    dsimp only [Sum.elim_inl, id] at hn
    rw [hn, State.rest_advances, ht, List.drop_nil]
  · intro t t' ht hround
    obtain ⟨spec, hspec, hempty⟩ := hopen
    unfold skipRound at hround
    rw [spanWhile_stay (fun c rest hrest => absurd (ht.symm.trans hrest) nofun), Option.bind_some] at hround
    obtain ⟨⟨b, u⟩, hcomments, hleave⟩ := Option.map_eq_some_iff.mp hround
    have hpeek : peekAt spec.opener t = true := by
      rw [peekAt, hempty]
      rfl
    obtain rfl := skipComments_open hspec hpeek hcomments
    dsimp only at hleave
    rw [if_pos (Or.inl rfl)] at hleave
    cases hleave

/-- **A form that opens here** is skipped. -/
theorem skip_passes (hopeners : ∀ spec ∈ G.comments, cString spec.opener ≠ []) {spec : CommentDef}
    (hspec : spec ∈ G.comments) (hopen : peekAt spec.opener s = true)
    (hstop : ∀ c rest, s.pos.rest = c :: rest → G.ignores c = some false) (h : Settles (fun n => skip G n s) s') :
    s'.left < s.left := by
  obtain ⟨b, s₂, ⟨N, hN⟩, hless⟩ := skipComments_ends hopeners s
  obtain ⟨M, hM⟩ := h
  obtain ⟨fuel, hfuel⟩ : ∃ fuel, fuel = max N M := ⟨_, rfl⟩
  have hcomments : skipComments fuel G.comments s = some (b, s₂) := hN fuel (by omega)
  have hskip : skip G fuel s = some s' := hM fuel (by omega)
  obtain rfl := skipComments_open hspec hopen hcomments
  have hless := hless rfl
  have hfirst : skipRound G fuel s = some (.inl s₂) := by
    unfold skipRound
    rw [spanWhile_stay hstop, Option.bind_some, hcomments, Option.map_some]
    exact congrArg some (if_pos (.inl rfl))
  refine loop_inv (P := fun t => t = s ∨ t.left < s.left) (Q := fun t => t.left < s.left) ?_ ?_ fuel s s' (.inl rfl)
    hskip
  · rintro t t' (rfl | ht) hround
    · rw [hfirst] at hround
      obtain rfl := Sum.inl.inj (Option.some.inj hround)
      exact .inr hless
    · exact .inr (Nat.lt_of_le_of_lt (skipRound_slides hround).left_le ht)
  · rintro t t' (rfl | ht) hround
    · rw [hfirst] at hround
      exact absurd (Option.some.inj hround) nofun
    · exact Nat.lt_of_le_of_lt (skipRound_slides hround).left_le ht

/-- **Where no form of the table opens**, `peg_skip` stays. -/
theorem pegSkip_stay {input : List UInt8} {p' : PegState} (hends : ∀ c, (G.ignores c).isSome)
    (hopeners : ∀ spec ∈ G.comments, cString spec.opener ≠ [])
    (hclosed : ∀ spec ∈ G.comments.take pegMaxComments, peekAt spec.opener (pegInit input).cursor = false)
    (hstop : ∀ c rest, input = c :: rest → G.ignores c = some false)
    (h : Settles (fun n => pegSkip n (ready G input)) p') : p'.cursor = (pegInit input).cursor := by
  obtain ⟨N, hN⟩ := h
  have hskip : pegSkip (N + 1) (ready G input) = some p' := hN (N + 1) (Nat.le_succ N)
  have htab : (fun c => some ((ready G input).wsTab c)) = G.ignores :=
    funext fun c => ((tracked_ready hends).wsTab c).symm
  have hround : pegSkipRound (ready G input).wsTab (ready G input).comments (N + 1) (pegInit input).cursor =
      some (.inr (pegInit input).cursor) := by
    have htable : (ready G input).comments = (G.comments.take pegMaxComments).map pegCommentSpec := rfl
    unfold pegSkipRound
    rw [htab, spanWhile_stay hstop, Option.bind_some, htable,
      pegSkipComments_eq (fun spec hspec => hopeners spec (List.mem_of_mem_take hspec)),
      skipComments_closed hclosed, Option.map_some]
    exact congrArg some (if_neg (by simp))
  have hcursor : (ready G input).cursor = (pegInit input).cursor := rfl
  have hmemo : (ready G input).memo = none := rfl
  rw [pegSkip_miss (fun _ hhit => absurd (hmemo.symm.trans hhit) nofun), pegSkipMiss, loop, hcursor, hround, Option.bind_some,
    Option.map_some] at hskip
  exact (congrArg PegState.cursor (Option.some.inj hskip)).symm

/-- **No form may open with the empty string.** -/
theorem openers_of_agree (hends : ∀ c, (G.ignores c).isSome) (h : SkipsAgree G) :
    ∀ spec ∈ G.comments, cString spec.opener ≠ [] := by
  intro spec hspec hempty
  obtain ⟨p', s', -, hplain, -⟩ := h [] _ (parserInit_iff.mpr ⟨hends, rfl⟩) _ .start
  obtain ⟨N, hN⟩ := hplain.ends
  exact skip_open ⟨spec, hspec, hempty⟩ rfl hN

/-- **The forms past the fourth must be covered**: what one of them opens with is skipped in C++. -/
theorem covered_of_agree (hends : ∀ c, (G.ignores c).isSome) (h : SkipsAgree G) :
    ∀ spec ∈ G.comments.drop pegMaxComments, Covered G spec := by
  intro spec hspec
  have hopeners := openers_of_agree hends h
  by_contra hcovered
  obtain ⟨hignored, hfirst⟩ := not_or.mp hcovered
  obtain ⟨p', s', hp', hs', hplace⟩ := h (cString spec.opener) _ (parserInit_iff.mpr ⟨hends, rfl⟩) _ .start
  have hmem := List.mem_of_mem_drop hspec
  have hstop : ∀ c rest, cString spec.opener = c :: rest → G.ignores c = some false := by
    intro c rest hc
    rw [hc, List.headD_cons] at hignored
    obtain ⟨b, hb⟩ := Option.isSome_iff_exists.mp (hends c)
    cases b with
    | true => exact absurd hb hignored
    | false => exact hb
  have hstay := pegSkip_stay hends hopeners (fun first hm => by
    rw [← Bool.not_eq_true]
    exact fun hopen => hfirst ⟨first, hm, List.isPrefixOf_iff_prefix.mp hopen⟩) hstop hp'
  have hpasses := skip_passes hopeners hmem (List.isPrefixOf_iff_prefix.mpr (List.prefix_refl _)) hstop hs'
  rw [hstay] at hplace
  rw [← left_at hplace] at hpasses
  exact Nat.lt_irrefl _ hpasses

end Apart

/-- **Memoised skipping is plain skipping** for a grammar whose predicate comes back for every byte if and only if no
form opens with the empty string and the forms past the fourth are covered by what is there before them. -/
theorem skips_agree_iff (G : Grammar) :
    SkipsAgree G ↔ ((∀ c, (G.ignores c).isSome) → (∀ spec ∈ G.comments, cString spec.opener ≠ []) ∧
      ∀ spec ∈ G.comments.drop pegMaxComments, Covered G spec) := by
  constructor
  · intro h hends
    exact ⟨openers_of_agree hends h, covered_of_agree hends h⟩
  · intro h input p₀ hinit p hp
    obtain ⟨hends, rfl⟩ := parserInit_iff.mp hinit
    obtain ⟨hopeners, hcovered⟩ := h hends
    obtain ⟨p', s', hp', hs', hplace, -⟩ := (tracked_reached hends hopeners hcovered hp).skip hopeners hcovered
    exact ⟨p', s', hp', hs', hplace⟩

/-- `COMMENTS FROM "#" TO "\n"`, and so on: five forms. -/
def fiveForms : Grammar where
  charsets := []
  tokens := []
  comments := [35, 37, 59, 64, 33].map fun c => ⟨[c], [10], false, false⟩
  ignore := none
  productions := []

/-- **The fifth form is lost.** -/
theorem fifth_lost : ¬SkipsAgree fiveForms := by
  intro h
  have hcovered := covered_of_agree (fun _ => rfl) h ⟨[33], [10], false, false⟩ (by decide)
  rcases hcovered with hignored | ⟨first, hmem, hstarts⟩
  · exact absurd hignored (by decide)
  · revert first
    decide

end Bbq.Peg
