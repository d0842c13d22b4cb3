import Bbq.Cek.Resync

/-!
# Where an array ends

The terminators of `compile_array` (`backends/cek/bbq.ddcg:1002-1102`): a count, `eof`, `until`, a type.

* `ends`: whether the specification of an array ends it at a boundary.
* `Allowed`: a run of elements up to the first boundary where it does.
* **`array_honours`**: what the machine makes of an array is that run, unless its terminator is a type, or it is both
  `count(e)` and `resync`.

`compile_array` has no case for a type (`TypeTerm`), and leaves the mode at `EOF_`. `ArrayCountCheck` wants the loop on top of
the frames, where a resyncing array has its savepoint.
-/

namespace Bbq.Cek

open Zcow (Builder)

/-! ## The specification -/

section

variable (p : Program)

/-- Whether the array ends at the boundary `s`. A terminator type ends it where it matches. -/
def ends (n : Nat) (call : String → Parser) (limit : Int64) (spec : ArraySpec) (first : Bool) (s : St) : Outcome Bool :=
  match spec with
  | .fixedCount _ => .ok (decide (s.counter.getD 0 ≥ limit))
  | .sepTerm _ .eof => .ok (decide (s.pos ≥ s.effectiveEnd p))
  | .sepTerm _ (.count e) =>
    if first then .ok (decide ¬ (limit > 0)) else do return decide (s.counter.getD 0 ≥ (← s.int p e))
  | .sepTerm _ (.until e) => s.test p e
  | .sepTerm _ (.type t) => ((parse p false n call t "" s) >>= fun _ => .ok true).orElse (.ok false)

/-- The run of elements that a specification allows from `s` on, each with the state it was parsed from: there is another at
each boundary where the array does not end, and none where it does. `P` is the element there; a later one comes after a
separator. An array that resyncs looks for the next element byte by byte, up to the end of the window. -/
inductive Allowed (resync : Bool) (limit : Int64) (stops : Bool → St → Outcome Bool) (later : Parser) :
    Bool → Parser → St → List St → St → Prop
  | stop {first P s} : stops first s = .ok true → Allowed resync limit stops later first P s [] s
  | element {first P s Q e e' es t} : stops first s = .ok false → Tries p later P s Q e →
      (resync = false → Q = P ∧ e = s) → Q e = .ok e' → Allowed resync limit stops later false later e'.advance es t →
      Allowed resync limit stops later first P s (e :: es) t
  | none {first P s Q e} : stops first s = .ok false → resync = true → Tries p later P s Q e → Q e = .fail →
      e.effectiveEnd p ≤ e.pos → shortOf limit e = false → Allowed resync limit stops later first P s [] e

end

/-! ## The loop -/

section

variable {p : Program} {resync : Bool} {limit : Int64} {stops : Bool → St → Outcome Bool} {more : St → Outcome Bool}
  {later P : Parser} {n : Nat} {s t : St} {es : List St}

/-- What an attempt at an element of `P` comes to, and what follows. -/
def Attempted (p : Program) (resync : Bool) (limit : Int64) (stops : Bool → St → Outcome Bool) (later P : Parser) (s : St)
    (es : List St) (t : St) : Prop :=
  (∃ Q e e' rest, es = e :: rest ∧ Tries p later P s Q e ∧ (resync = false → Q = P ∧ e = s) ∧ Q e = .ok e' ∧
    Allowed p resync limit stops later false later e'.advance rest t) ∨
  (es = [] ∧ resync = true ∧ ∃ Q, Tries p later P s Q t ∧ Q t = .fail ∧ t.effectiveEnd p ≤ t.pos ∧ shortOf limit t = false)

theorem Attempted.allowed {first : Bool} (hs : stops first s = .ok false) (h : Attempted p resync limit stops later P s es t) :
    Allowed p resync limit stops later first P s es t := by
  rcases h with ⟨Q, e, e', rest, rfl, htries, hone, hok, hrest⟩ | ⟨rfl, hres, Q, htries, hfail, hend, hshort⟩
  · exact .element hs htries hone hok hrest
  · exact .none hs hres htries hfail hend hshort

theorem Allowed.attempted {first : Bool} (hs : stops first s = .ok false)
    (h : Allowed p resync limit stops later first P s es t) : Attempted p resync limit stops later P s es t := by
  cases h with
  | stop hstop => cases hstop.symm.trans hs
  | element _ htries hone hok hrest => exact .inl ⟨_, _, _, _, rfl, htries, hone, hok, hrest⟩
  | none _ hres htries hfail hend hshort => exact .inr ⟨rfl, hres, _, htries, hfail, hend, hshort⟩

/-- One byte on, an attempt has more to come to. -/
theorem Attempted.byte (hres : resync = true) (hs : P s = .fail) (hp : s.pos < s.effectiveEnd p)
    (h : Attempted p resync limit stops later later s.skip es t) : Attempted p resync limit stops later P s es t := by
  rcases h with ⟨Q, e, e', rest, rfl, htries, -, hok, hrest⟩ | ⟨rfl, -, Q, htries, hfail, hend, hshort⟩
  · refine .inl ⟨Q, e, e', rest, rfl, .byte hs hp htries, fun h => ?_, hok, hrest⟩
    rw [hres] at h
    cases h
  · exact .inr ⟨rfl, hres, Q, .byte hs hp htries, hfail, hend, hshort⟩

/-- What an attempt that failed comes to is what the next one does. -/
theorem Attempted.skip (hres : resync = true) (hs : P s = .fail) (hp : s.pos < s.effectiveEnd p)
    (h : Attempted p resync limit stops later P s es t) : Attempted p resync limit stops later later s.skip es t := by
  rcases h with ⟨Q, e, e', rest, rfl, htries, -, hok, hrest⟩ | ⟨rfl, -, Q, htries, hfail, hend, hshort⟩
  · cases htries with
    | here => cases hok.symm.trans hs
    | byte _ _ htries =>
      refine .inl ⟨Q, e, e', rest, rfl, htries, fun h => ?_, hok, hrest⟩
      rw [hres] at h
      cases h
  · cases htries with
    | here => exact absurd hp (Nat.not_lt.2 hend)
    | byte _ _ htries => exact .inr ⟨rfl, hres, Q, htries, hfail, hend, hshort⟩

/-- At the end of the window nothing follows an attempt that failed but the end of the array. -/
theorem Attempted.last (hs : P s = .fail) (hp : ¬ s.pos < s.effectiveEnd p)
    (h : Attempted p resync limit stops later P s es t) : shortOf limit s = false := by
  rcases h with ⟨Q, e, e', rest, rfl, htries, -, hok, hrest⟩ | ⟨rfl, -, Q, htries, hfail, hend, hshort⟩
  · cases htries with
    | here => cases hok.symm.trans hs
    | byte _ hlt => exact absurd hlt hp
  · cases htries with
    | here => exact hshort
    | byte _ hlt => exact absurd hlt hp

/-- The loop's question is the specification's. -/
structure Asks (resync : Bool) (stops : Bool → St → Outcome Bool) (more : St → Outcome Bool) : Prop where
  more_eq : ∀ s, more s = (do return !(← stops false s))
  total : resync = true → ∀ first s, ∃ b, stops first s = .ok b

/-- The answer, as the loop wants it. -/
def another (stops : Bool → St → Outcome Bool) (first : Bool) (s : St) : Outcome Bool := do return !(← stops first s)

theorem elements_found {s' : St} (h : P s = .ok s') :
    elements p resync limit more later (n + 1) (.ok true) P s =
      elements p resync limit more later n (more s'.advance) later s'.advance := by
  simp only [elements, Outcome.ok_bind, h]
  rfl

theorem elements_lost (h : P s = .fail) :
    elements p resync limit more later (n + 1) (.ok true) P s =
      if resync = false then .fail
      else if s.pos ≥ s.effectiveEnd p then if shortOf limit s then .fail else .ok s
      else elements p resync limit more later n (.ok true) later s.skip := by
  simp only [elements, Outcome.ok_bind, h]
  rfl

/-- A run of attempts stops at the first that finds an element. -/
theorem Tries.unique {Q Q' : Parser} {e e' : St} (h : Tries p later P s Q e) (h' : Tries p later P s Q' e')
    (hstop : Q e ≠ .fail ∨ e.effectiveEnd p ≤ e.pos) (hstop' : Q' e' ≠ .fail ∨ e'.effectiveEnd p ≤ e'.pos) :
    Q' = Q ∧ e' = e := by
  induction h with
  | here =>
    cases h' with
    | here => exact ⟨rfl, rfl⟩
    | byte hlost hlt => exact (hstop.elim (· hlost) (Nat.not_le.2 hlt)).elim
  | byte hlost hlt _ ih =>
    cases h' with
    | here => exact (hstop'.elim (· hlost) (Nat.not_le.2 hlt)).elim
    | byte _ _ h' => exact ih h' hstop

/-- No boundary allows two runs. -/
theorem Allowed.unique {first : Bool} {es' : List St} {t' : St} (h : Allowed p resync limit stops later first P s es t)
    (h' : Allowed p resync limit stops later first P s es' t') : es' = es ∧ t' = t := by
  induction h generalizing es' t' with
  | stop hstop =>
    cases h' with
    | stop => exact ⟨rfl, rfl⟩
    | element hno => cases hno.symm.trans hstop
    | none hno => cases hno.symm.trans hstop
  | element hno htries _ hok _ ih =>
    cases h' with
    | stop hstop => cases hstop.symm.trans hno
    | element _ htries' _ hok' hrest' =>
      obtain ⟨rfl, rfl⟩ := htries.unique htries' (.inl fun h => nomatch hok.symm.trans h)
        (.inl fun h => nomatch hok'.symm.trans h)
      cases hok.symm.trans hok'
      obtain ⟨rfl, rfl⟩ := ih hrest'
      exact ⟨rfl, rfl⟩
    | none _ _ htries' hfail hend =>
      obtain ⟨rfl, rfl⟩ := htries.unique htries' (.inl fun h => nomatch hok.symm.trans h) (.inr hend)
      cases hok.symm.trans hfail
  | none hno _ htries hfail hend _ =>
    cases h' with
    | stop hstop => cases hstop.symm.trans hno
    | element _ htries' _ hok' =>
      obtain ⟨rfl, rfl⟩ := htries.unique htries' (.inr hend) (.inl fun h => nomatch hok'.symm.trans h)
      cases hok'.symm.trans hfail
    | none _ _ htries' _ hend' =>
      obtain ⟨rfl, rfl⟩ := htries.unique htries' (.inr hend) (.inr hend')
      exact ⟨rfl, rfl⟩

/-- From an attempt to the question before it. -/
theorem asked_ok {first : Bool} (ha : Asks resync stops more)
    (hatt : elements p resync limit more later n (.ok true) P s = .ok t → ∃ es, Attempted p resync limit stops later P s es t)
    (h : elements p resync limit more later n (another stops first s) P s = .ok t) :
    ∃ es, Allowed p resync limit stops later first P s es t := by
  unfold another at h
  rcases hs : stops first s with b | _ | _ | _
  · rw [hs] at h
    rcases b with _ | _
    · obtain ⟨es, hes⟩ := hatt h
      exact ⟨es, hes.allowed hs⟩
    · rcases n with _ | n
      · cases h
      · cases h
        exact ⟨[], .stop hs⟩
  · rw [hs] at h
    rcases n with _ | n
    · cases h
    · rcases resync with _ | _
      · cases h
      · obtain ⟨b, hb⟩ := ha.total rfl first s
        cases hb.symm.trans hs
  · rw [hs] at h
    rcases n with _ | n <;> cases h
  · rw [hs] at h
    rcases n with _ | n <;> cases h

/-- **A run that the loop finds is allowed.** -/
theorem attempt_ok (ha : Asks resync stops more)
    (h : elements p resync limit more later n (.ok true) P s = .ok t) : ∃ es, Attempted p resync limit stops later P s es t := by
  induction n generalizing P s with
  | zero => cases h
  | succ n ih =>
    rcases hres : P s with s' | _ | _ | _
    · rw [elements_found hres, ha.more_eq] at h
      obtain ⟨es, hes⟩ := asked_ok ha ih h
      exact ⟨s :: es, .inl ⟨P, s, s', es, rfl, .here, fun _ => ⟨rfl, rfl⟩, hres, hes⟩⟩
    · rw [elements_lost hres] at h
      split at h
      · cases h
      · rename_i hyes
        have hresync : resync = true := by
          rcases resync with _ | _
          · exact absurd rfl hyes
          · rfl
        split at h
        · rename_i hend
          split at h
          · cases h
          · rename_i hshort
            cases h
            exact ⟨[], .inr ⟨rfl, hresync, P, .here, hres, hend, Bool.eq_false_of_not_eq_true hshort⟩⟩
        · rename_i hend
          obtain ⟨es, hes⟩ := ih h
          exact ⟨es, hes.byte hresync hres (Nat.lt_of_not_le hend)⟩
    · simp only [elements, Outcome.ok_bind, hres] at h
      cases h
    · simp only [elements, Outcome.ok_bind, hres] at h
      cases h

/-- From the question to an attempt that is not made. -/
theorem asked_fail {first : Bool}
    (hatt : elements p resync limit more later n (.ok true) P s = .fail → ¬ Attempted p resync limit stops later P s es t)
    (h : elements p resync limit more later n (another stops first s) P s = .fail) :
    ¬ Allowed p resync limit stops later first P s es t := by
  intro hallowed
  rcases hs : stops first s with b | _ | _ | _
  · unfold another at h
    rw [hs] at h
    rcases b with _ | _
    · exact hatt h (hallowed.attempted hs)
    · rcases n with _ | n <;> cases h
  all_goals cases hallowed with
    | stop hstop => cases hstop.symm.trans hs
    | element hno => cases hno.symm.trans hs
    | none hno => cases hno.symm.trans hs

/-- **Where the loop fails, no run is allowed.** -/
theorem attempt_fail (ha : Asks resync stops more) (h : elements p resync limit more later n (.ok true) P s = .fail) :
    ¬ Attempted p resync limit stops later P s es t := by
  induction n generalizing P s es with
  | zero => cases h
  | succ n ih =>
    intro hatt
    rcases hres : P s with s' | _ | _ | _
    · rw [elements_found hres, ha.more_eq] at h
      rcases hatt with ⟨Q, e, e', rest, rfl, htries, hone, hok, hrest⟩ | ⟨rfl, hresync, Q, htries, hfail, hend, hshort⟩
      · cases htries with
        | here =>
          cases hok.symm.trans hres
          exact asked_fail ih h hrest
        | byte hlost => cases hlost.symm.trans hres
      · cases htries with
        | here => cases hfail.symm.trans hres
        | byte hlost => cases hlost.symm.trans hres
    · rw [elements_lost hres] at h
      split at h
      · rename_i hno
        rcases hatt with ⟨Q, e, e', rest, rfl, htries, hone, hok, hrest⟩ | ⟨rfl, hresync, -⟩
        · obtain ⟨rfl, rfl⟩ := hone hno
          cases hok.symm.trans hres
        · cases hresync.symm.trans hno
      · rename_i hyes
        have hresync : resync = true := by
          rcases resync with _ | _
          · exact absurd rfl hyes
          · rfl
        split at h
        · rename_i hend
          have hshort := hatt.last hres (Nat.not_lt.2 hend)
          rw [hshort] at h
          cases h
        · rename_i hend
          exact ih h (hatt.skip hresync hres (Nat.lt_of_not_le hend))
    · simp only [elements, Outcome.ok_bind, hres] at h
      cases h
    · simp only [elements, Outcome.ok_bind, hres] at h
      cases h

end

/-! ## The array -/

/-- `Sema` refuses `resync` with `until`. -/
def LoopSite.Accepted (site : LoopSite) : Prop := site.resyncs = true → ∀ sep e, site.spec ≠ .sepTerm sep (.until e)

/-- A terminator that the compiler and the machine have a case for: not a type, and no positive `count(e)` in a resyncing
array. -/
structure LoopSite.Handled (p : Program) (site : LoopSite) (s : St) : Prop where
  type : ∀ sep t, site.spec ≠ .sepTerm sep (.type t)
  count : site.resyncs = true → ∀ sep e limit, site.spec = .sepTerm sep (.count e) → s.int p e = .ok limit → ¬ limit > 0

/-- What the machine makes of an array is the run of elements its specification allows. -/
structure ArrayHonoured (p : Program) (n : Nat) (m : Machine) (site : LoopSite) (o : Outcome St) : Prop where
  /-- The run comes to `o`. -/
  runs : Sim p n 0 m site.next o
  allowed : ∀ t, o = .ok t → ∃ limit es s, arrayLimit p site.mode m.state = .ok limit ∧
    Allowed p site.resyncs limit (ends p n (parseRule p false n) limit site.spec)
      (parseSpec p false n (parseRule p false n) site.spec (site.elementParser p n (parseRule p false n)))
      true (site.elementParser p n (parseRule p false n)) (m.state.opened site.arrayName) es s ∧ t = m.state.closed s
  /-- No other run is. -/
  only : ∀ limit es s es' s', Allowed p site.resyncs limit (ends p n (parseRule p false n) limit site.spec)
      (parseSpec p false n (parseRule p false n) site.spec (site.elementParser p n (parseRule p false n)))
      true (site.elementParser p n (parseRule p false n)) (m.state.opened site.arrayName) es s →
    Allowed p site.resyncs limit (ends p n (parseRule p false n) limit site.spec)
      (parseSpec p false n (parseRule p false n) site.spec (site.elementParser p n (parseRule p false n)))
      true (site.elementParser p n (parseRule p false n)) (m.state.opened site.arrayName) es' s' → es' = es ∧ s' = s
  refused : o = .fail → ∀ limit es s, arrayLimit p site.mode m.state = .ok limit →
    ¬ Allowed p site.resyncs limit (ends p n (parseRule p false n) limit site.spec)
      (parseSpec p false n (parseRule p false n) site.spec (site.elementParser p n (parseRule p false n)))
      true (site.elementParser p n (parseRule p false n)) (m.state.opened site.arrayName) es s

section

variable {p : Program} {site : LoopSite} {n : Nat} {m : Machine} {call : String → Parser} {limit : Int64} {s t : St}

theorem LoopSite.mode_of_spec {spec : ArraySpec} (h : site.spec = spec) : site.mode = arrayMode spec := by
  obtain ⟨name, element, spec', iv, resync, r, k⟩ := site
  cases h
  rfl

variable (n call) in
/-- The first question is the specification's. -/
theorem firstElement_eq (htype : ∀ sep t, site.spec ≠ .sepTerm sep (.type t)) (hs : s.counter = some 0) :
    firstElement p site.mode limit s = another (ends p n call limit site.spec) true s := by
  obtain ⟨name, element, spec, iv, resync, r, k⟩ := site
  unfold another
  rcases spec with e | ⟨sep, _ | e | e | t⟩
  · have hiff : limit > 0 ↔ ¬ (0 : Int64) ≥ limit := Int64.not_le.symm
    simp only [firstElement, LoopSite.mode, LoopSite.spec, ends, hs, Option.getD_some, hiff, decide_not]
    rfl
  · simp only [firstElement, LoopSite.mode, LoopSite.spec, ends, decide_not]
    rfl
  · simp only [firstElement, LoopSite.mode, LoopSite.spec, ends, decide_not, if_true, Outcome.ok_bind, Bool.not_not]
    rfl
  · rfl
  · exact absurd rfl (htype sep t)

variable (p n call limit) in
/-- The later questions are too. -/
theorem asks_ends (htype : ∀ sep t, site.spec ≠ .sepTerm sep (.type t)) (haccepted : site.Accepted)
    (hcount : site.resyncs = true → ∀ sep e, site.spec ≠ .sepTerm sep (.count e)) :
    Asks site.resyncs (ends p n call limit site.spec) (moreElements p site.mode site.resyncs limit) := by
  obtain ⟨name, element, spec, iv, resync, r, k⟩ := site
  rcases spec with e | ⟨sep, _ | e | e | t⟩
  · exact ⟨fun s => by simp only [moreElements, LoopSite.mode, LoopSite.spec, ends, decide_not]; rfl, fun _ _ _ => ⟨_, rfl⟩⟩
  · exact ⟨fun s => by simp only [moreElements, LoopSite.mode, LoopSite.spec, ends, decide_not]; rfl, fun _ _ _ => ⟨_, rfl⟩⟩
  · rcases resync with _ | _
    · refine ⟨fun s => ?_, fun h => by cases h⟩
      simp only [moreElements, LoopSite.mode, LoopSite.spec, LoopSite.resyncs, ends, decide_not, Bool.false_eq_true, if_false,
        Outcome.bind_assoc]
      rfl
    · exact absurd rfl (hcount rfl sep e)
  · exact ⟨fun s => rfl, fun h => absurd rfl (haccepted h sep e)⟩
  · exact absurd rfl (htype sep t)

/-- What the loop of an array finds is what its specification allows. -/
theorem loop_allowed {later P : Parser} (hhandled : site.Handled p s) (haccepted : site.Accepted)
    (hlimit : arrayLimit p site.mode s = .ok limit)
    (h : elements p site.resyncs limit (moreElements p site.mode site.resyncs limit) later n
      (firstElement p site.mode limit (s.opened site.arrayName)) P (s.opened site.arrayName) = .ok t) :
    ∃ es, Allowed p site.resyncs limit (ends p n call limit site.spec) later true P (s.opened site.arrayName) es t := by
  rw [firstElement_eq n call hhandled.type rfl] at h
  by_cases hcount : site.resyncs = true ∧ ∃ sep e, site.spec = .sepTerm sep (.count e)
  · obtain ⟨hres, sep, e, hspec⟩ := hcount
    have hnone : ends p n call limit site.spec true (s.opened site.arrayName) = .ok true := by
      rw [hspec]
      rw [LoopSite.mode_of_spec hspec] at hlimit
      exact congrArg Outcome.ok (decide_eq_true (hhandled.count hres sep e limit hspec hlimit))
    unfold another at h
    rw [hnone] at h
    rcases n with _ | n
    · cases h
    · cases h
      exact ⟨[], .stop hnone⟩
  · have ha := asks_ends p n call limit hhandled.type haccepted
      fun hres sep e hspec => hcount ⟨hres, sep, e, hspec⟩
    exact asked_ok ha (attempt_ok ha) h

/-- Where the loop of an array fails, its specification allows nothing. -/
theorem loop_refused {later P : Parser} {es : List St} (hhandled : site.Handled p s) (haccepted : site.Accepted)
    (hlimit : arrayLimit p site.mode s = .ok limit)
    (h : elements p site.resyncs limit (moreElements p site.mode site.resyncs limit) later n
      (firstElement p site.mode limit (s.opened site.arrayName)) P (s.opened site.arrayName) = .fail) :
    ¬ Allowed p site.resyncs limit (ends p n call limit site.spec) later true P (s.opened site.arrayName) es t := by
  rw [firstElement_eq n call hhandled.type rfl] at h
  by_cases hcount : site.resyncs = true ∧ ∃ sep e, site.spec = .sepTerm sep (.count e)
  · obtain ⟨hres, sep, e, hspec⟩ := hcount
    have hnone : ends p n call limit site.spec true (s.opened site.arrayName) = .ok true := by
      rw [hspec]
      rw [LoopSite.mode_of_spec hspec] at hlimit
      exact congrArg Outcome.ok (decide_eq_true (hhandled.count hres sep e limit hspec hlimit))
    unfold another at h
    rw [hnone] at h
    rcases n with _ | n <;> cases h
  · have ha := asks_ends p n call limit hhandled.type haccepted
      fun hres sep e hspec => hcount ⟨hres, sep, e, hspec⟩
    exact asked_fail (attempt_fail ha) h

/-- An array, between the opening of its scope and the close. -/
theorem parseArray_eq (mode : ArrayMode) (resync : Bool) (body later : Parser) (name : String) :
    parseArray p n name mode resync body later s = (arrayLimit p mode s >>= fun limit =>
      elements p resync limit (moreElements p mode resync limit) later n (firstElement p mode limit (s.opened name)) body
        (s.opened name) >>= fun t => .ok (s.closed t)) := rfl

/-- An array that a run reaches. -/
theorem reached_honoured (hg : Good p m) (hctl : m.control = .run (.beginArray site)) (haccepted : site.Accepted)
    (hhandled : site.Handled p m.state) :
    ArrayHonoured p n m site (parseArray p n site.arrayName site.mode site.resyncs
      (site.elementParser p n (parseRule p false n))
      (parseSpec p false n (parseRule p false n) site.spec (site.elementParser p n (parseRule p false n))) m.state) := by
  refine ⟨reached_sim rule_sim hg hctl, fun t h => ?_, fun _ _ _ _ _ h h' => h.unique h', fun h limit es s hlimit => ?_⟩
  · obtain ⟨limit, hlimit, h⟩ := Outcome.bind_eq_ok.1 h
    obtain ⟨s, hs, h⟩ := Outcome.bind_eq_ok.1 h
    cases h
    obtain ⟨es, hes⟩ := loop_allowed hhandled haccepted hlimit hs
    exact ⟨limit, es, s, hlimit, hes, rfl⟩
  · refine loop_refused hhandled haccepted hlimit ?_
    rw [parseArray_eq, hlimit, Outcome.ok_bind] at h
    generalize elements p site.resyncs limit _ _ n _ _ _ = o at h
    rcases o with _ | _ | _ | _ <;> first | rfl | cases h

end

/-! ## Instances -/

/-- `Doc = array<uint8>(none, term)` -/
def byteRun (term : Terminator) (bytes : List UInt8) (small : bytes.length < 2 ^ 63) : Program :=
  { grammar :=
      { defaultLittleEndian := true
        rules := [⟨"Doc", .array (.primitive (.integer .w8 .unsigned .default .fixed) none none) (.sepTerm .none term)
          none none none false⟩] }
    bytes, small
    externs := none }

def toEnd : Program := byteRun .eof [7] seven_small

def toEndEntry : Kont := (toEnd.entry "Doc").getD .halt

/-- `Doc = array<uint8>(none, Z)`, where `Z` is a zero byte. -/
def toZero : Program := byteRun (.type (checkedByte 0)) [5, 0, 6] (by decide)

end Bbq.Cek
