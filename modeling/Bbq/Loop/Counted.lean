import Mathlib.Tactic.ByContra

/-!
# Counted arrays in the four readers

A counted array `array<T>[n]` or `array<T> count(e)` as each backend runs it:

* the CEK machine (`Machine.cpp:1252-1346`): `BeginArrayWithLimit` tests the count before the
  first element, `ArrayNext` (`ArrayCountCheck` for `count(e)`) after each;
* the owning C reader (`reader_c_stencil.inja:113-133, 194-205`), the C++ view
  (`reader_view_cpp.inja:155-175`, `bbq_machine.h:32-42`) and the C lite view
  (`reader_view_c.inja:150-166`, `bbq_read.h:313-343`): `array_begin` compares the count with
  zero, `array_next` advances the innermost loop's index and compares it with the limit.

An element is any function of the loop index and the reader's state (`none` when it does not
parse); the first element and the later ones may differ, as a separator precedes the latter.
Counts and indices are 64-bit signed, `size_t` is 64-bit unsigned. Allocation is taken to
succeed. Arrays with `resync` have a driver of their own and are not modelled here.

**`sameMeaning_iff`**: the four agree, and parse exactly the count's number of elements, iff the
count is not negative. A negative one is a `do … while` with one element in the generated readers
and no element in the machine.
-/

namespace Bbq.Loop

variable {σ : Type}

/-- The element of an array, at a loop index. -/
structure Element (σ : Type) where
  /-- `BeginArray`'s body edge: the first element. -/
  head : Int64 → σ → Option σ
  /-- `ArrayNext`'s body edge: the separator, if the array has one, and an element. -/
  again : Int64 → σ → Option σ

/-- What bounds the loop after the first element. -/
inductive Bound (σ : Type)
  /-- `[n]`: the limit the loop started with. -/
  | fixed
  /-- `count(e)`: `e` again, which sees the loop index and what has been parsed. -/
  | count (eval : Int64 → σ → Option Int64)

/-- How an array ends: with the states its elements started in and the one it left, or not. -/
inductive Outcome (σ : Type)
  | ended (starts : List σ) (last : σ)
  | failed

/-- What a counted array means: `k` more elements, the next one at index `i`. -/
def elements (e : Element σ) : (k i : Nat) → (starts : List σ) → (s : σ) → Outcome σ
  | 0, _, starts, s => .ended starts s
  | k + 1, i, starts, s =>
    match (if i = 0 then e.head else e.again) (.ofNat i) s with
    | none => .failed
    | some s' => elements e k (i + 1) (starts ++ [s]) s'

/-! ## The CEK machine -/

/-- `LoopFrame`: the two members a counted array uses. -/
structure LoopFrame where
  counter : Int64
  limit : Int64

/-- The element body and then `ArrayNext`, as often as the frame's counter allows. `fuel` bounds
the elements. -/
def cekLoop (e : Element σ) (bound : Bound σ) :
    (fuel : Nat) → (body : Int64 → σ → Option σ) → LoopFrame → List σ → σ → Option (Outcome σ)
  | 0, _, _, _, _ => none
  | fuel + 1, body, lf, starts, s =>
    match body lf.counter s with
    | none => some .failed
    | some s' =>
      let lf := { lf with counter := lf.counter + 1 }
      match bound with
      | .fixed =>
        if lf.counter ≥ lf.limit then some (.ended (starts ++ [s]) s')
        else cekLoop e bound fuel e.again lf (starts ++ [s]) s'
      | .count eval =>
        match eval lf.counter s' with
        | none => some .failed
        | some limit =>
          if lf.counter ≥ limit then some (.ended (starts ++ [s]) s')
          else cekLoop e bound fuel e.again lf (starts ++ [s]) s'

/-- `BeginArrayWithLimit`, once the count has evaluated to `limit`. -/
def cekArray (e : Element σ) (bound : Bound σ) (fuel : Nat) (limit : Int64) (s : σ) :
    Option (Outcome σ) :=
  if limit ≤ 0 then some (.ended [] s) else cekLoop e bound fuel e.head ⟨0, limit⟩ [] s

/-! ## The generated readers -/

/-- The loop stack: `(index, limit)` of each open array, innermost first. -/
abbrev LoopStack := List (Int64 × Int64)

def pushLoop (loops : LoopStack) (limit : Int64) : LoopStack := (0, limit) :: loops

def popLoop (loops : LoopStack) : LoopStack := loops.tail

def loopIndex (loops : LoopStack) : Int64 := (loops.head?.map Prod.fst).getD 0

def loopAdvance : LoopStack → LoopStack
  | [] => []
  | (i, limit) :: loops => (i + 1, limit) :: loops

/-- `loop_next`: advance, and whether another element remains. -/
def loopNext (loops : LoopStack) : Bool × LoopStack :=
  match loops with
  | [] => (false, [])
  | (i, limit) :: loops => (decide (i + 1 < limit), (i + 1, limit) :: loops)

/-- The element stencil and then `array_next` or `array_next_count`. -/
def readerLoop (e : Element σ) (bound : Bound σ) :
    (fuel : Nat) → (body : Int64 → σ → Option σ) → LoopStack → List σ → σ → Option (Outcome σ)
  | 0, _, _, _, _ => none
  | fuel + 1, body, loops, starts, s =>
    match body (loopIndex loops) s with
    | none => some .failed
    | some s' =>
      match bound with
      | .fixed =>
        match loopNext loops with
        | (true, loops) => readerLoop e bound fuel e.again loops (starts ++ [s]) s'
        | (false, _) => some (.ended (starts ++ [s]) s')
      | .count eval =>
        let loops := loopAdvance loops
        match eval (loopIndex loops) s' with
        | none => some .failed
        | some count =>
          if loopIndex loops < count then readerLoop e bound fuel e.again loops (starts ++ [s]) s'
          else some (.ended (starts ++ [s]) s')

/-- `array_begin` of the C++ view and of the C lite view. -/
def viewArray (e : Element σ) (bound : Bound σ) (fuel : Nat) (loops : LoopStack) (n : Int64)
    (s : σ) : Option (Outcome σ) :=
  if n = 0 then some (.ended [] s) else readerLoop e bound fuel e.head (pushLoop loops n) [] s

/-- `array_begin` of the owning C reader: the count is a `size_t`, and the limit pushed that
`size_t` back as a signed number. -/
def owningArray (e : Element σ) (bound : Bound σ) (fuel : Nat) (loops : LoopStack) (n : Int64)
    (s : σ) : Option (Outcome σ) :=
  let count : UInt64 := n.toUInt64
  if count = 0 then some (.ended [] s)
  else readerLoop e bound fuel e.head (pushLoop loops count.toInt64) [] s

/-! ## Where they agree -/

inductive Backend
  | cek | owningC | viewCpp | liteC
  deriving DecidableEq, Repr

/-- A counted array in a backend, `loops` the arrays it is nested in. -/
def Backend.array (b : Backend) (e : Element σ) (bound : Bound σ) (fuel : Nat)
    (loops : LoopStack) (n : Int64) (s : σ) : Option (Outcome σ) :=
  match b with
  | .cek => cekArray e bound fuel n s
  | .owningC => owningArray e bound fuel loops n s
  | .viewCpp | .liteC => viewArray e bound fuel loops n s

/-- The bound is `n` throughout: `[n]`, or a `count(e)` whose value does not change. -/
def Bound.Steady (n : Int64) : Bound σ → Prop
  | .fixed => True
  | .count eval => ∀ i s, eval i s = some n

/-- **What the claim says of one array**: every backend does what the machine does, and while the
bound stands, that is to parse `max n 0` elements or fail. -/
def SameMeaning (e : Element σ) (bound : Bound σ) (loops : LoopStack) (n : Int64) (s : σ) : Prop :=
  (∀ b : Backend, ∀ fuel, b.array e bound fuel loops n s = cekArray e bound fuel n s) ∧
  (bound.Steady n → ∀ b : Backend, ∃ fuel,
    b.array e bound fuel loops n s = some (elements e n.toInt.toNat 0 [] s))

/-- From the same index and limit the generated loop does what the machine's does: `i < n` is how
the one says not `i ≥ n`. -/
theorem readerLoop_eq_cekLoop (e : Element σ) (bound : Bound σ) (limit : Int64)
    (loops : LoopStack) :
    ∀ (fuel : Nat) (body : Int64 → σ → Option σ) (i : Int64) (starts : List σ) (s : σ),
      readerLoop e bound fuel body ((i, limit) :: loops) starts s =
        cekLoop e bound fuel body ⟨i, limit⟩ starts s
  | 0, _, _, _, _ => rfl
  | fuel + 1, body, i, starts, s => by
    have ih := readerLoop_eq_cekLoop e bound limit loops fuel e.again (i + 1)
    simp only [readerLoop, cekLoop, loopIndex, List.head?_cons, Option.map_some, Option.getD_some]
    cases body i s with
    | none => rfl
    | some s' =>
      cases bound with
      | fixed =>
        simp only [loopNext]
        by_cases h : i + 1 < limit
        · simp [h, ih, Int64.not_le.2 h]
        · simp [h, Int64.not_lt.1 h]
      | count eval =>
        simp only [loopAdvance, List.head?_cons, Option.map_some, Option.getD_some]
        cases eval (i + 1) s' with
        | none => rfl
        | some count =>
          by_cases h : i + 1 < count
          · simp [h, ih, Int64.not_le.2 h]
          · simp [h, Int64.not_lt.1 h]

/-- The trip through `size_t` changes nothing, so the owning reader does what the views do. -/
theorem owningArray_eq (e : Element σ) (bound : Bound σ) (fuel : Nat) (loops : LoopStack)
    (n : Int64) (s : σ) : owningArray e bound fuel loops n s = viewArray e bound fuel loops n s := by
  have hzero : n.toUInt64 = 0 ↔ n = 0 :=
    ⟨fun h => by rw [← Int64.toInt64_toUInt64 n, h]; rfl, fun h => by rw [h]; rfl⟩
  simp only [owningArray, viewArray, hzero, Int64.toInt64_toUInt64]

/-- A count that is not negative is tested alike by `= 0` and `≤ 0`. -/
theorem viewArray_eq_cekArray (e : Element σ) (bound : Bound σ) (fuel : Nat) (loops : LoopStack)
    {n : Int64} (hn : 0 ≤ n) (s : σ) :
    viewArray e bound fuel loops n s = cekArray e bound fuel n s := by
  have htest : n = 0 ↔ n ≤ 0 := ⟨fun h => h ▸ Int64.le_refl _, fun h => Int64.le_antisymm h hn⟩
  simp only [viewArray, cekArray, htest, pushLoop, readerLoop_eq_cekLoop]

theorem array_eq_cekArray (b : Backend) (e : Element σ) (bound : Bound σ) (fuel : Nat)
    (loops : LoopStack) {n : Int64} (hn : 0 ≤ n) (s : σ) :
    b.array e bound fuel loops n s = cekArray e bound fuel n s := by
  cases b with
  | cek => rfl
  | owningC =>
    exact (owningArray_eq e bound fuel loops n s).trans
      (viewArray_eq_cekArray e bound fuel loops hn s)
  | viewCpp | liteC => exact viewArray_eq_cekArray e bound fuel loops hn s

/-- A negative count enters the loop of every generated reader, whose first round is over before
the count is looked at: no such outcome is the machine's. -/
theorem viewArray_ne_cekArray (e : Element σ) (bound : Bound σ) (loops : LoopStack) {n : Int64}
    (hn : n < 0) (s : σ) : viewArray e bound 1 loops n s ≠ cekArray e bound 1 n s := by
  have hne : n ≠ 0 := fun h => absurd (h ▸ hn) (by decide : ¬ (0 : Int64) < 0)
  have hcek : cekArray e bound 1 n s = some (.ended [] s) := if_pos (Int64.le_of_lt hn)
  rw [hcek]
  simp only [viewArray, hne, if_false, pushLoop, readerLoop_eq_cekLoop, cekLoop]
  cases e.head 0 s with
  | none => simp
  | some s' =>
    cases bound with
    | fixed => simp only; split <;> simp
    | count eval =>
      simp only
      cases eval (0 + 1) s' with
      | none => simp
      | some limit => simp only; split <;> simp

/-- The loop test on 64-bit numbers, as one on the number of elements parsed. -/
theorem ofNat_ge_iff {n : Int64} {i : Nat} (hi : i ≤ n.toInt.toNat) :
    Int64.ofNat i ≥ n ↔ n.toInt.toNat ≤ i := by
  have hlt := n.toInt_lt
  rw [ge_iff_le, Int64.le_iff_toInt_le, Int64.toInt_ofNat_of_lt (by omega)]
  omega

/-- **Loop lemma**: with the bound standing at `n` and `i` elements parsed, the machine parses the
rest. The induction is on what is left. -/
theorem cekLoop_elements (e : Element σ) {bound : Bound σ} {n : Int64} (hb : bound.Steady n) :
    ∀ (k i fuel : Nat) (starts : List σ) (s : σ), i + (k + 1) = n.toInt.toNat → k + 1 ≤ fuel →
      cekLoop e bound fuel (if i = 0 then e.head else e.again) ⟨.ofNat i, n⟩ starts s =
        some (elements e (k + 1) i starts s)
  | k, i, fuel + 1, starts, s, hk, hfuel => by
    have hcounter : Int64.ofNat i + 1 = Int64.ofNat (i + 1) := (Int64.ofNat_add i 1).symm
    have hge := ofNat_ge_iff (n := n) (i := i + 1) (by omega)
    simp only [cekLoop, elements]
    cases (if i = 0 then e.head else e.again) (.ofNat i) s with
    | none => rfl
    | some s' =>
      have hround : ∀ limit, limit = n →
          (if Int64.ofNat i + 1 ≥ limit then some (Outcome.ended (starts ++ [s]) s')
            else cekLoop e bound fuel e.again ⟨Int64.ofNat i + 1, n⟩ (starts ++ [s]) s') =
          some (elements e k (i + 1) (starts ++ [s]) s') := by
        rintro limit rfl
        rw [hcounter]
        match k, hk, hfuel with
        | 0, hk, _ => rw [if_pos (hge.2 (by omega)), elements]
        | k + 1, hk, hfuel =>
          rw [if_neg fun h => absurd (hge.1 h) (by omega)]
          exact cekLoop_elements e hb k (i + 1) fuel (starts ++ [s]) s' (by omega) (by omega)
      cases bound with
      | fixed => exact hround n rfl
      | count eval =>
        simp only [hb (Int64.ofNat i + 1) s']
        exact hround n rfl

/-- **The machine parses the count's number of elements**, given fuel for as many. -/
theorem cekArray_elements (e : Element σ) {bound : Bound σ} {n : Int64} (hb : bound.Steady n)
    {fuel : Nat} (hfuel : n.toInt.toNat ≤ fuel) (s : σ) :
    cekArray e bound fuel n s = some (elements e n.toInt.toNat 0 [] s) := by
  have hzero : n ≤ 0 ↔ n.toInt.toNat = 0 := by
    rw [Int64.le_iff_toInt_le, Int64.toInt_zero]
    omega
  unfold cekArray
  split
  · rename_i h
    rw [hzero.1 h, elements]
  · rename_i h
    obtain ⟨k, hk⟩ : ∃ k, n.toInt.toNat = k + 1 :=
      Nat.exists_eq_succ_of_ne_zero fun h0 => h (hzero.2 h0)
    rw [hk]
    exact cekLoop_elements e hb k 0 fuel [] s (by omega) (by omega)

/-- **Counted arrays mean the same in all four backends exactly for counts that are not
negative**: whatever the element, the bound, the enclosing loops and the input. -/
theorem sameMeaning_iff (e : Element σ) (bound : Bound σ) (loops : LoopStack) (n : Int64) (s : σ) :
    SameMeaning e bound loops n s ↔ 0 ≤ n := by
  constructor
  · intro h
    by_contra hn
    exact viewArray_ne_cekArray e bound loops (Int64.not_le.1 hn) s (h.1 .viewCpp 1)
  · intro hn
    refine ⟨fun b fuel => array_eq_cekArray b e bound fuel loops hn s, fun hb b => ?_⟩
    exact ⟨n.toInt.toNat, by
      rw [array_eq_cekArray b e bound _ loops hn s, cekArray_elements e hb (Nat.le_refl _) s]⟩

/-- The element of an array of bytes: one byte on, inside a window of `stop` bytes. -/
def byteElement (stop : Nat) : Element Nat :=
  { head := fun _ pos => if pos < stop then some (pos + 1) else none
    again := fun _ pos => if pos < stop then some (pos + 1) else none }

/-- `array<uint8>[-1]` on two bytes: the machine parses none, the generated readers one. -/
theorem negative_count_parses_one : ¬ SameMeaning (byteElement 2) .fixed [] (-1) 0 := by
  intro h
  have hone := h.1 .viewCpp 1
  simp [Backend.array, viewArray, cekArray, readerLoop, byteElement, pushLoop, loopIndex,
    loopNext] at hone

end Bbq.Loop
