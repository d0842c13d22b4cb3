import Bbq.Cek.Elements
import Mathlib.Tactic.IntervalCases

/-!
# Resyncing counted arrays

`array<T>[n] resync`: `BeginArray`, `ArrayNext` and `ResyncKont` of the machine (`backends/cek/Machine.cpp:1135-1429`) and
the loop of the generated readers (`array_begin_resync` in `backends/render/templates/reader_view_cpp.inja:191-221`, and
alike in the two templates for C).

* `readElements`: the readers' loop. The machine attempts an element at the end of the window too; the readers do not.
* **`resync_collects`**: what a resyncing `[n]` array captures, when it fails, and that the readers say the same.
-/

namespace Bbq.Cek

open Zcow (Builder)

/-! ## The generated readers -/

section

variable (p : Program)

/-- The loop of `array_begin_resync`, `counted`: the elements it collects, each with the state it was read from. What a
checkpoint restores is the state it was taken in. -/
def readElements (body : Parser) (limit : Int64) : (fuel : Nat) → St → Outcome (List St × St)
  | 0, _ => .timeout
  | n + 1, s =>
    if s.counter.getD 0 ≥ limit then .ok ([], s)
    else if s.pos ≥ s.effectiveEnd p then .fail
    else
      match body s with
      | .ok s' => do
        let (es, t) ← readElements body limit n s'.advance
        return (s :: es, t)
      | .fail => readElements body limit n s.skip
      | .timeout => .timeout
      | .missing => .missing

/-- `array_begin_resync` and `end_array`: the count is decoded before the array's scope opens. A reader has no
environment; the one its elements are given goes with the array. -/
def readArray (fuel : Nat) (name : String) (count : Expr) (body : Parser) (s : St) : Outcome (List St × St) := do
  let limit ← s.int p count
  let (es, t) ← readElements p body limit fuel { s.openScope .array name with counter := some 0 }
  return (es, { t.closeScope with env := s.env, counter := s.counter })

end

/-! ## The machine's loop -/

section

variable {p : Program} {body : Parser} {limit c : Int64} {e : Expr} {n : Nat} {s t : St}

/-- `elements` of a resyncing `[n]` array, at an attempt. -/
def attempts (p : Program) (body : Parser) (count : Expr) (limit : Int64) (n : Nat) (gate : Outcome Bool) (s : St) : Outcome St :=
  elements p true limit (moreElements p (.fixedCount count) true limit) body n gate body s

theorem more_fixedCount (hs : s.counter = some c) :
    moreElements p (.fixedCount e) true limit s = .ok (decide (c < limit)) := by
  have hiff : (¬ c ≥ limit) ↔ c < limit := Int64.not_le
  simp only [moreElements, hs, Option.getD_some, hiff]

theorem attempts_ok {s' : St} (h : body s = .ok s') :
    attempts p body e limit (n + 1) (.ok true) s =
      attempts p body e limit n (moreElements p (.fixedCount e) true limit s'.advance) s'.advance := by
  simp only [attempts, elements, Outcome.ok_bind, h]
  rfl

theorem attempts_fail (h : body s = .fail) (hs : s.counter = some c) (hc : c < limit) (h0 : 0 ≤ limit) :
    attempts p body e limit (n + 1) (.ok true) s =
      if s.pos ≥ s.effectiveEnd p then .fail else attempts p body e limit n (.ok true) s.skip := by
  have hshort : shortOf limit s = true := by
    simp [shortOf, hs, h0, hc]
  simp only [attempts, elements, Outcome.ok_bind, h, hshort]
  rfl

/-- **What is captured**: as many elements as the count still asks for. -/
theorem attempts_collect (hbody : Steady body) (h0 : 0 ≤ limit) (hs : s.counter = some c) (hc : c < limit)
    (h : attempts p body e limit n (.ok true) s = .ok t) :
    ∃ es, Collects p body body s es t ∧ c.toInt + es.length = limit.toInt := by
  induction n generalizing s c with
  | zero => cases h
  | succ n ih =>
    rcases hres : body s with s' | _ | _ | _
    · rw [attempts_ok hres] at h
      have hlt : c.toInt < limit.toInt := Int64.lt_iff_toInt_lt.1 hc
      have hs' : s'.advance.counter = some (c + 1) := by
        show s'.counter.map (· + 1) = _
        rw [hbody s s' hres, hs]
        rfl
      have hnext : (c + 1).toInt = c.toInt + 1 := toInt_add_one hlt
      rw [more_fixedCount hs'] at h
      by_cases hmore : c + 1 < limit
      · rw [decide_eq_true hmore] at h
        obtain ⟨es, hes, hlen⟩ := ih hs' hmore h
        refine ⟨s :: es, .cons .here hres hes, ?_⟩
        rw [List.length_cons]
        omega
      · rw [decide_eq_false hmore] at h
        have hdone : ¬ (c + 1).toInt < limit.toInt := fun hlt' => hmore (Int64.lt_iff_toInt_lt.2 hlt')
        rcases n with _ | n
        · cases h
        · cases h
          exact ⟨[s], .cons .here hres .nil, by simp only [List.length_singleton]; omega⟩
    · rw [attempts_fail hres hs hc h0] at h
      split at h
      · cases h
      · rename_i hp
        obtain ⟨es, hes, hlen⟩ := ih (s := s.skip) hs hc h
        rcases es with _ | ⟨a, es⟩
        · have hlt : c.toInt < limit.toInt := Int64.lt_iff_toInt_lt.1 hc
          simp only [List.length_nil] at hlen
          omega
        · exact ⟨a :: es, hes.skipped hres (Nat.lt_of_not_le hp), hlen⟩
    · simp only [attempts, elements, Outcome.ok_bind, hres] at h
      cases h
    · simp only [attempts, elements, Outcome.ok_bind, hres] at h
      cases h

/-- **When the array fails**: the window ends before the count is met. -/
theorem attempts_short (hbody : Steady body) (h0 : 0 ≤ limit) (hs : s.counter = some c) (hc : c < limit)
    (h : attempts p body e limit n (.ok true) s = .fail) :
    ∃ es s₁ s₂, Collects p body body s es s₁ ∧ Tries p body body s₁ body s₂ ∧ s₂.effectiveEnd p ≤ s₂.pos ∧
      body s₂ = .fail ∧ c.toInt + es.length < limit.toInt := by
  have hlt : c.toInt < limit.toInt := Int64.lt_iff_toInt_lt.1 hc
  induction n generalizing s c with
  | zero => cases h
  | succ n ih =>
    rcases hres : body s with s' | _ | _ | _
    · rw [attempts_ok hres] at h
      have hs' : s'.advance.counter = some (c + 1) := by
        show s'.counter.map (· + 1) = _
        rw [hbody s s' hres, hs]
        rfl
      have hnext : (c + 1).toInt = c.toInt + 1 := toInt_add_one hlt
      rw [more_fixedCount hs'] at h
      by_cases hmore : c + 1 < limit
      · rw [decide_eq_true hmore] at h
        obtain ⟨es, s₁, s₂, hes, htries, hend, hfail, hlen⟩ := ih hs' hmore h (Int64.lt_iff_toInt_lt.1 hmore)
        refine ⟨s :: es, s₁, s₂, .cons .here hres hes, htries, hend, hfail, ?_⟩
        rw [List.length_cons]
        omega
      · rw [decide_eq_false hmore] at h
        rcases n with _ | n <;> cases h
    · rw [attempts_fail hres hs hc h0] at h
      split at h
      · rename_i hp
        exact ⟨[], s, s, .nil, .here, hp, hres, by simpa using hlt⟩
      · rename_i hp
        have hroom : s.pos < s.effectiveEnd p := Nat.lt_of_not_le hp
        obtain ⟨es, s₁, s₂, hes, htries, hend, hfail, hlen⟩ := ih (s := s.skip) hs hc h hlt
        rcases es with _ | ⟨a, es⟩
        · cases hes
          exact ⟨[], s, s₂, .nil, .byte hres hroom htries, hend, hfail, hlen⟩
        · exact ⟨a :: es, s₁, s₂, hes.skipped hres hroom, htries, hend, hfail, hlen⟩
    · simp only [attempts, elements, Outcome.ok_bind, hres] at h
      cases h
    · simp only [attempts, elements, Outcome.ok_bind, hres] at h
      cases h

/-- **The readers' loop is the machine's**, where no attempt at the end of the window finds an element. -/
theorem attempts_read (hbody : Steady body) (h0 : 0 ≤ limit) (hs : s.counter = some c) (hc : c < limit)
    (hend : ∀ es s₁ s₂, Collects p body body s es s₁ → Tries p body body s₁ body s₂ → c.toInt + es.length < limit.toInt →
      s₂.effectiveEnd p ≤ s₂.pos → body s₂ = .fail) :
    attempts p body e limit n (.ok true) s = (do return (← readElements p body limit n s).2) := by
  induction n generalizing s c with
  | zero => rfl
  | succ n ih =>
    have hlt : c.toInt < limit.toInt := Int64.lt_iff_toInt_lt.1 hc
    have hidx : ¬ s.counter.getD 0 ≥ limit := by
      rw [hs]
      exact Int64.not_le.2 hc
    unfold readElements
    rw [if_neg hidx]
    by_cases hp : s.pos ≥ s.effectiveEnd p
    · have hfail := hend [] s s .nil .here (by simpa using hlt) hp
      rw [if_pos hp, attempts_fail hfail hs hc h0, if_pos hp]
      rfl
    rw [if_neg hp]
    have hroom : s.pos < s.effectiveEnd p := Nat.lt_of_not_le hp
    rcases hres : body s with s' | _ | _ | _
    · have hs' : s'.advance.counter = some (c + 1) := by
        show s'.counter.map (· + 1) = _
        rw [hbody s s' hres, hs]
        rfl
      have hnext : (c + 1).toInt = c.toInt + 1 := toInt_add_one hlt
      rw [attempts_ok hres, more_fixedCount hs']
      have hread : (do return (← (do
          let (es, t) ← readElements p body limit n s'.advance
          return (s :: es, t) : Outcome (List St × St))).2 : Outcome St) =
          (do return (← readElements p body limit n s'.advance).2) := by
        rcases readElements p body limit n s'.advance with _ | _ | _ | _ <;> rfl
      refine Eq.trans ?_ hread.symm
      by_cases hmore : c + 1 < limit
      · rw [decide_eq_true hmore]
        refine ih hs' hmore fun es s₁ s₂ hes htries hlen => ?_
        refine hend (s :: es) s₁ s₂ (.cons .here hres hes) htries ?_
        rw [List.length_cons]
        omega
      · rw [decide_eq_false hmore]
        have hidx' : s'.advance.counter.getD 0 ≥ limit := by
          rw [hs']
          exact Int64.not_lt.1 hmore
        rcases n with _ | n
        · rfl
        · unfold readElements
          rw [if_pos hidx']
          rfl
    · rw [attempts_fail hres hs hc h0, if_neg hp]
      refine ih (s := s.skip) hs hc fun es s₁ s₂ hes htries hlen => ?_
      rcases es with _ | ⟨a, es⟩
      · cases hes
        exact hend [] s s₂ .nil (.byte hres hroom htries) hlen
      · exact hend (a :: es) s₁ s₂ (hes.skipped hres hroom) htries hlen
    · simp only [attempts, elements, Outcome.ok_bind, hres]
      rfl
    · simp only [attempts, elements, Outcome.ok_bind, hres]
      rfl

end

/-! ## The array -/

/-- The state in which the elements of an array are begun. -/
def St.opened (s : St) (name : String) : St := { s.openScope .array name with counter := some 0 }

/-- The state that an array leaves, whose last element left `t`. -/
def St.closed (s t : St) : St := { t.closeScope with env := s.env, counter := s.counter }

/-- What a resyncing array of `count` elements does from `m`, its elements parsed by `body`. -/
structure ResyncCounted (p : Program) (n : Nat) (m : Machine) (site : LoopSite) (count : Expr) (body : Parser)
    (o : Outcome St) : Prop where
  /-- The run comes to `o`. -/
  runs : Sim p n 0 m site.next o
  /-- Success: as many elements as were declared, each where the attempts since the one before failed. -/
  collects : ∀ t, o = .ok t → ∃ limit es s, m.state.int p count = .ok limit ∧ es.length = limit.toInt.toNat ∧
    Collects p body body (m.state.opened site.arrayName) es s ∧ t = m.state.closed s
  /-- Failure: the count is no integer, or the window ended first. -/
  short : o = .fail → m.state.int p count = .fail ∨ ∃ limit es s₁ s₂, m.state.int p count = .ok limit ∧
    es.length < limit.toInt.toNat ∧ Collects p body body (m.state.opened site.arrayName) es s₁ ∧
    Tries p body body s₁ body s₂ ∧ s₂.effectiveEnd p ≤ s₂.pos ∧ body s₂ = .fail
  /-- The generated readers say the same, unless an attempt at the end of the window finds an element. -/
  readers : (∀ limit es s₁ s₂, m.state.int p count = .ok limit →
      Collects p body body (m.state.opened site.arrayName) es s₁ → Tries p body body s₁ body s₂ →
      es.length < limit.toInt.toNat → s₂.effectiveEnd p ≤ s₂.pos → body s₂ = .fail) →
    o = (do return (← readArray p n site.arrayName count body m.state).2)

section

variable {p : Program} {site : LoopSite} {count : Expr} {n : Nat} {m : Machine}

theorem LoopSite.spec_of_fixedCount (h : site.mode = .fixedCount count) : site.spec = .fixedCount count := by
  obtain ⟨name, element, spec, iv, resync, r, k⟩ := site
  rcases spec with e | ⟨sep, _ | e | e | t⟩
  · cases h
    rfl
  · cases h
  · cases h
  · cases h
  · cases h

/-- A resyncing `[n]` array, once its count is known. -/
theorem array_attempts (body : Parser) (s : St) (name : String) :
    parseArray p n name (.fixedCount count) true body body s =
      (s.int p count >>= fun limit =>
        attempts p body count limit n (.ok (decide (limit > 0))) (s.opened name) >>= fun t => .ok (s.closed t)) := rfl

theorem limit_zero : (0 : Int64).toInt = 0 := by decide

theorem limit_nonpos {limit : Int64} (h : ¬ limit > 0) : limit.toInt.toNat = 0 := by
  have hle : ¬ (0 : Int64).toInt < limit.toInt := fun hlt => h (Int64.lt_iff_toInt_lt.2 hlt)
  rw [limit_zero] at hle
  omega

/-- **A resyncing array that a run reaches.** -/
theorem reached_counted (hg : Good p m) (hctl : m.control = .run (.beginArray site)) (hres : site.resyncs = true)
    (hmode : site.mode = .fixedCount count) :
    ResyncCounted p n m site count (site.elementParser p n (parseRule p false n))
      (parseArray p n site.arrayName (.fixedCount count) true (site.elementParser p n (parseRule p false n))
        (site.elementParser p n (parseRule p false n)) m.state) := by
  have hruns := reached_sim rule_sim hg hctl (n := n)
  have hlater : parseSpec p false n (parseRule p false n) site.spec (site.elementParser p n (parseRule p false n)) =
      site.elementParser p n (parseRule p false n) := by
    rw [LoopSite.spec_of_fixedCount hmode]
    rfl
  rw [hlater, hmode, hres] at hruns
  have hbody : Steady (site.elementParser p n (parseRule p false n)) := element_steady site
  generalize site.elementParser p n (parseRule p false n) = body at hruns hbody
  refine ⟨hruns, fun t h => ?_, fun h => ?_, fun hend => ?_⟩
  · rw [array_attempts] at h
    obtain ⟨limit, hlimit, h⟩ := Outcome.bind_eq_ok.1 h
    obtain ⟨s, hs, h⟩ := Outcome.bind_eq_ok.1 h
    cases h
    by_cases hpos : limit > 0
    · rw [decide_eq_true hpos] at hs
      obtain ⟨es, hes, hlen⟩ := attempts_collect hbody (Int64.le_of_lt hpos) rfl hpos hs
      rw [limit_zero] at hlen
      exact ⟨limit, es, s, hlimit, by omega, hes, rfl⟩
    · rw [decide_eq_false hpos] at hs
      rcases n with _ | n
      · cases hs
      · cases hs
        exact ⟨limit, [], _, hlimit, (limit_nonpos hpos).symm, .nil, rfl⟩
  · rw [array_attempts] at h
    rcases hlimit : m.state.int p count with limit | _ | _ | _
    · rw [hlimit, Outcome.ok_bind] at h
      have hfail : attempts p body count limit n (.ok (decide (limit > 0))) (m.state.opened site.arrayName) = .fail := by
        generalize attempts p body count limit n _ _ = o at h
        rcases o with _ | _ | _ | _ <;> first | rfl | cases h
      by_cases hpos : limit > 0
      · rw [decide_eq_true hpos] at hfail
        obtain ⟨es, s₁, s₂, hes, htries, hend, hres₂, hlen⟩ := attempts_short hbody (Int64.le_of_lt hpos) rfl hpos hfail
        rw [limit_zero] at hlen
        exact .inr ⟨limit, es, s₁, s₂, rfl, by omega, hes, htries, hend, hres₂⟩
      · rw [decide_eq_false hpos] at hfail
        rcases n with _ | n <;> cases hfail
    · exact .inl rfl
    · rw [hlimit] at h
      cases h
    · rw [hlimit] at h
      cases h
  · rw [array_attempts]
    unfold readArray
    rcases hlimit : m.state.int p count with limit | _ | _ | _
    · dsimp only [Outcome.ok_bind]
      have hread : attempts p body count limit n (.ok (decide (limit > 0))) (m.state.opened site.arrayName) =
          (do return (← readElements p body limit n (m.state.opened site.arrayName)).2) := by
        by_cases hpos : limit > 0
        · rw [decide_eq_true hpos]
          refine attempts_read hbody (Int64.le_of_lt hpos) rfl hpos fun es s₁ s₂ hes htries hlen => ?_
          rw [limit_zero] at hlen
          exact hend limit es s₁ s₂ hlimit hes htries (by omega)
        · rw [decide_eq_false hpos]
          have hidx : (m.state.opened site.arrayName).counter.getD 0 ≥ limit := Int64.not_lt.1 hpos
          rcases n with _ | n
          · rfl
          · unfold readElements
            rw [if_pos hidx]
            rfl
      rw [hread]
      show _ = (do return (← (readElements p body limit n (m.state.opened site.arrayName) >>= fun x =>
        .ok (x.1, m.state.closed x.2))).2)
      rcases readElements p body limit n (m.state.opened site.arrayName) with _ | _ | _ | _ <;> rfl
    · rfl
    · rfl
    · rfl

end

/-! ## Instances -/

/-- `Doc = array<uint8>[n] resync @ iv` -/
def byteTable (n : Int64) (iv : Option Interval) (bytes : List UInt8) (small : bytes.length < 2 ^ 63) : Program :=
  { grammar :=
      { defaultLittleEndian := true
        rules := [⟨"Doc", .array (.primitive (.integer .w8 .unsigned .default .fixed) none none) (.fixedCount (.intLit n))
          none none iv true⟩] }
    bytes, small
    externs := none }

theorem seven_small : ([7] : List UInt8).length < 2 ^ 63 := by decide

def oneByte : Program := byteTable 1 none [7] seven_small

def oneByteEntry : Kont := (oneByte.entry "Doc").getD .halt

/-- The bytes of a table read from its end: `Doc = array<uint8>[2] resync @ [1 - @index, 2 - @index]`. -/
def backward : Program :=
  byteTable 2 (some (.startEnd (.binOp (.intLit 1) .sub (.builtin .index)) (.binOp (.intLit 2) .sub (.builtin .index)))) [7, 8]
    (by decide)

end Bbq.Cek
