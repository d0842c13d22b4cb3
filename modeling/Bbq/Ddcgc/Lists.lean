import Bbq.Lib.Splice
import Mathlib.Algebra.Ring.Int.Defs
import Mathlib.Algebra.Ring.Nat
import Mathlib.Logic.Function.Iterate

/-!
# Lists of ddcgc

The list helpers that `emit_helpers_block` of `ddcgc/src/c_backend.cpp` emits, and what the C++ backend has in their
place.

* A list of C is a header by value over a block of the arena; the arena refuses nothing. `junk` is what stands in a
  block that nothing was written to.
* A list of C++ is a `std::vector`, and so a list. `ListState` has what both made of the same operations.
* `Valued`: each value that was ever made reads as it does in C++.
* **`lists_keep`**: so it is as long as no list is extended over elements that another value counts, nor past the
  capacity that doubling allows. **`extended_twice`**: else it is not.
-/

namespace Bbq.Ddcgc

open Bbq.Lib

variable {E : Type}

/-- `INT_MAX`. -/
def intMax : Nat := 2 ^ 31 - 1

/-- `<prefix>_list_<elem>_t`, without the arena. -/
structure CList where
  data : Option Nat
  count : Nat
  capacity : Nat
  oom : Bool
  deriving DecidableEq

/-- The blocks of the arena. -/
abbrev Blocks (E : Type) := List (List E)

namespace CList

/-- `_make`. -/
def make : CList := { data := none, count := 0, capacity := 0, oom := false }

/-- `a.data[i]`. -/
def read (h : Blocks E) (a : CList) (i : Nat) : Option E := a.data.bind fun d => h[d]?.bind fun block => block[i]?

/-- `a.data[a.count++] = v`. -/
def store (h : Blocks E) (a : CList) (v : E) : Option (Blocks E × CList) :=
  a.data.bind fun d => h[d]?.bind fun block =>
    if a.count < block.length then some (h.set d (block.set a.count v), { a with count := a.count + 1 }) else none

/-- What `memcpy` takes along. -/
def old (h : Blocks E) (a : CList) : Option (List E) :=
  if a.count = 0 then some [] else a.data.bind fun d => h[d]?.map fun block => block.take a.count

/-- The capacity behind `c`. -/
def nextCapacity (c : Nat) : Nat := if c = 0 then 4 else c * 2

variable (junk : Nat → Nat → E)

/-- `_push`. -/
def push (h : Blocks E) (a : CList) (v : E) : Option (Blocks E × CList) :=
  if a.oom then some (h, a)
  else if a.capacity ≤ a.count then
    if intMax / 2 < a.capacity then some (h, { a with oom := true })
    else
      (old h a).bind fun kept =>
        let nc := nextCapacity a.capacity
        store (h ++ [kept ++ (List.range (nc - kept.length)).map (junk h.length)])
          { a with data := some h.length, capacity := nc } v
  else store h a v

/-- The loop of `_concat`, for `left` elements from `i` on. -/
def concatFrom (b : CList) : Nat → Nat → Blocks E → CList → Option (Blocks E × CList)
  | 0, _, h, a => some (h, a)
  | left + 1, i, h, a =>
    (read h b i).bind fun v => (push junk h a v).bind fun (h, a) => concatFrom b left (i + 1) h a

/-- `_concat`. -/
def concat (h : Blocks E) (a b : CList) : Option (Blocks E × CList) :=
  (concatFrom junk b b.count 0 h a).map fun (h, a) => (h, if b.oom then { a with oom := true } else a)

/-- `_at`. -/
def at_ (zero : E) (h : Blocks E) (a : CList) (i : Int) : Option E :=
  if 0 ≤ i ∧ i < a.count then read h a i.toNat else some zero

/-- `_from_arr`. -/
def fromArr (h : Blocks E) (arr : List E) : Blocks E × CList :=
  if arr.length = 0 then (h, make)
  else (h ++ [arr], { data := some h.length, count := arr.length, capacity := arr.length, oom := false })

/-- The code of a list literal. -/
def lit (h : Blocks E) : CList → List E → Option (Blocks E × CList)
  | a, [] => some (h, a)
  | a, x :: xs => (push junk h a x).bind fun (h, a) => lit h a xs

end CList

/-- What a rule does with lists: a value is made for the name `x`. -/
inductive ListOp (E : Type)
  | lit (x : Nat) (elems : List E)
  /-- A read of a sequence field. -/
  | seq (x : Nat) (arr : List E)
  | concat (x left right : Nat)
  /-- A `let`, or an assignment. -/
  | bind (x y : Nat)

/-- The name that an operation gives a value to. -/
def ListOp.name : ListOp E → Nat
  | lit x _ | seq x _ | concat x _ _ | bind x _ => x

/-- The lists of C and of C++, and each value that was made: the header, and what C++ has. -/
structure ListState (E : Type) where
  blocks : Blocks E
  env : Nat → CList
  vectors : Nat → List E
  made : List (CList × List E)

namespace ListState

/-- No name has elements. -/
def init : ListState E := { blocks := [], env := fun _ => .make, vectors := fun _ => [], made := [(.make, [])] }

variable (junk : Nat → Nat → E) (s : ListState E)

/-- What the code of C makes. -/
def make : ListOp E → Option (Blocks E × CList)
  | .lit _ elems => CList.lit junk s.blocks .make elems
  | .seq _ arr => some (CList.fromArr s.blocks arr)
  | .concat _ left right => CList.concat junk s.blocks (s.env left) (s.env right)
  | .bind _ y => some (s.blocks, s.env y)

/-- What the code of C++ makes: `_ddcgc_concat` inserts at the end of a copy. -/
def vector : ListOp E → List E
  | .lit _ elems => elems
  | .seq _ arr => arr
  | .concat _ left right => s.vectors left ++ s.vectors right
  | .bind _ y => s.vectors y

def step (op : ListOp E) : Option (ListState E) :=
  (s.make junk op).map fun (blocks, value) =>
    { blocks
      env := Function.update s.env op.name value
      vectors := Function.update s.vectors op.name (s.vector op)
      made := (value, s.vector op) :: s.made }

def run (s : ListState E) : List (ListOp E) → Option (ListState E)
  | [] => some s
  | op :: ops => (s.step junk op).bind fun s => run s ops

end ListState

/-- The elements of a list, as far as it counts. -/
def CList.elems (h : Blocks E) (a : CList) : List E := ((a.data.bind fun d => h[d]?).getD []).take a.count

/-- **Lists are values**: what was made reads as it does in C++, element by element and as a whole. -/
def ListState.Valued (zero : E) (s : ListState E) : Prop :=
  ∀ p ∈ s.made, p.1.elems s.blocks = p.2 ∧ p.1.count = p.2.length ∧
    ∀ i : Int, p.1.at_ zero s.blocks i = some (if 0 ≤ i then p.2.getD i.toNat zero else zero)

/-! ## The condition -/

/-- No capacity from `c` on that is outgrown on the way to `needed` is too large to double. -/
def Doubles (c needed : Nat) : Prop :=
  ∀ j, CList.nextCapacity^[j] c < needed → CList.nextCapacity^[j] c ≤ intMax / 2

/-- The elements that `ys` adds to `a` in place are counted by no value, unless as what they are. -/
def Unshared (made : List (CList × List E)) (a : CList) (ys : List E) : Prop :=
  ∀ p ∈ made, p.1.data = a.data → ∀ i < min (a.count + ys.length) a.capacity, a.count ≤ i → i < p.1.count →
    p.2[i]? = ys[i - a.count]?

instance [DecidableEq E] (made : List (CList × List E)) (a : CList) (ys : List E) : Decidable (Unshared made a ys) :=
  inferInstanceAs (Decidable (∀ p ∈ made, p.1.data = a.data → ∀ i < min (a.count + ys.length) a.capacity,
    a.count ≤ i → i < p.1.count → p.2[i]? = ys[i - a.count]?))

/-- The condition on a step. -/
def ListState.Fine (s : ListState E) : ListOp E → Prop
  | .lit _ elems => Doubles 0 elems.length
  | .seq _ _ | .bind _ _ => True
  | .concat _ left right =>
    Unshared s.made (s.env left) (s.vectors right) ∧
      Doubles (s.env left).capacity ((s.env left).count + (s.env right).count)

/-- Every step of the run meets it. -/
def ListState.FineRun (junk : Nat → Nat → E) (s : ListState E) : List (ListOp E) → Prop
  | [] => True
  | op :: ops => s.Fine op ∧ ∀ s', s.step junk op = some s' → FineRun junk s' ops

/-! ## A push -/

/-- **A list reads as `xs`.** -/
structure CList.Reads (h : Blocks E) (a : CList) (xs : List E) : Prop where
  whole : a.oom = false
  block : a.data = none ∧ a.count = 0 ∧ a.capacity = 0 ∧ xs = [] ∨
    ∃ d block, a.data = some d ∧ h[d]? = some block ∧ block.length = a.capacity ∧ a.count ≤ a.capacity ∧
      block.take a.count = xs

namespace CList

variable {h h' : Blocks E} {a a' b : CList} {xs ys : List E} {v : E} {d i : Nat} {block : List E}
variable {junk : Nat → Nat → E}

theorem Reads.length (hr : Reads h a xs) : xs.length = a.count := by
  rcases hr.block with ⟨-, hcount, -, rfl⟩ | ⟨d, block, -, -, hlength, hle, rfl⟩
  · exact hcount.symm
  · rw [List.length_take, hlength, Nat.min_eq_left hle]

theorem Reads.lt (hr : Reads h a xs) (hdata : a.data = some d) : d < h.length := by
  rcases hr.block with ⟨hnone, -⟩ | ⟨d', block, hsome, hblock, -⟩
  · rw [hnone] at hdata
    exact absurd hdata nofun
  · obtain rfl := Option.some.inj (hsome.symm.trans hdata)
    exact (List.getElem?_eq_some_iff.mp hblock).1

theorem Reads.elems (hr : Reads h a xs) : a.elems h = xs := by
  unfold CList.elems
  rcases hr.block with ⟨hdata, -, -, rfl⟩ | ⟨d, block, hdata, hblock, -, -, htake⟩
  · rw [hdata]
    exact List.take_nil
  · rw [hdata, Option.bind_some, hblock]
    exact htake

theorem Reads.read (hr : Reads h a xs) (hi : i < xs.length) : read h a i = xs[i]? := by
  rcases hr.block with ⟨-, -, -, rfl⟩ | ⟨d, block, hdata, hblock, -, -, rfl⟩
  · exact absurd hi (Nat.not_lt_zero i)
  · rw [CList.read, hdata, Option.bind_some, hblock, Option.bind_some,
      List.getElem?_take_of_lt (Nat.lt_of_lt_of_le hi (List.length_take_le _ _))]

/-- What a list reads as shows in each read of it. -/
theorem Reads.at_ (hr : Reads h a xs) (zero : E) (i : Int) :
    at_ zero h a i = some (if 0 ≤ i then xs.getD i.toNat zero else zero) := by
  have hlength := hr.length
  unfold CList.at_
  by_cases hlow : 0 ≤ i
  · rw [if_pos hlow]
    by_cases hhigh : i < a.count
    · have hin : i.toNat < xs.length := by omega
      rw [if_pos ⟨hlow, hhigh⟩, hr.read hin, List.getD_eq_getElem?_getD, List.getElem?_eq_getElem hin, Option.getD_some]
    · rw [if_neg fun hboth => hhigh hboth.2, List.getD_eq_getElem?_getD,
        List.getElem?_eq_none (by omega), Option.getD_none]
  · rw [if_neg fun hboth => hlow hboth.1, if_neg hlow]

/-- A new block changes nothing. -/
theorem Reads.append (hr : Reads h a xs) (block : List E) : Reads (h ++ [block]) a xs := by
  refine ⟨hr.whole, hr.block.imp_right ?_⟩
  rintro ⟨d, old, hdata, hold, hrest⟩
  exact ⟨d, old, hdata, by rw [List.getElem?_append_left (List.getElem?_eq_some_iff.mp hold).1, hold], hrest⟩

/-- A write that a list does not count, or that changes nothing of it. -/
theorem Reads.set (hr : Reads h a xs) (hblock : h[d]? = some block)
    (hsame : a.data = some d → i < a.count → xs[i]? = some v) : Reads (h.set d (block.set i v)) a xs := by
  refine ⟨hr.whole, hr.block.imp_right ?_⟩
  rintro ⟨e, old, hdata, hold, hlength, hle, htake⟩
  by_cases hde : d = e
  · subst hde
    obtain rfl := Option.some.inj (hblock.symm.trans hold)
    refine ⟨d, _, hdata, List.getElem?_set_self (List.getElem?_eq_some_iff.mp hold).1, ?_, hle, ?_⟩
    · rw [List.length_set, hlength]
    · rw [take_set_same, htake]
      intro hi
      have hget := hsame hdata hi
      rw [← htake, List.getElem?_take_of_lt hi] at hget
      exact hget
  · exact ⟨e, old, hdata, by rw [List.getElem?_set_ne hde, hold], hlength, hle, htake⟩

/-- A write in place. -/
theorem store_spec (hr : Reads h a xs) (hroom : a.count < a.capacity) (v : E) :
    ∃ d block, a.data = some d ∧ h[d]? = some block ∧
      store h a v = some (h.set d (block.set a.count v), { a with count := a.count + 1 }) ∧
      Reads (h.set d (block.set a.count v)) { a with count := a.count + 1 } (xs ++ [v]) := by
  rcases hr.block with ⟨-, -, hzero, -⟩ | ⟨d, block, hdata, hblock, hlength, hle, rfl⟩
  · omega
  · have hin : a.count < block.length := by omega
    refine ⟨d, block, hdata, hblock, ?_, hr.whole, .inr ⟨d, _, hdata,
      List.getElem?_set_self (List.getElem?_eq_some_iff.mp hblock).1, ?_, hroom, take_set_succ v hin⟩⟩
    · rw [store, hdata, Option.bind_some, hblock, Option.bind_some, if_pos hin]
    · rw [List.length_set, hlength]

theorem lt_nextCapacity (c : Nat) : c < nextCapacity c := by
  unfold nextCapacity
  split
  · omega
  · omega

variable (junk) in
/-- **`_push`** writes in place while there is room, else in a block of its own. -/
theorem push_spec (hr : Reads h a xs) (v : E) (hgrow : a.capacity ≤ a.count → a.capacity ≤ intMax / 2) :
    ∃ h' a', push junk h a v = some (h', a') ∧ Reads h' a' (xs ++ [v]) ∧ a'.count = a.count + 1 ∧
      ((a.count < a.capacity ∧ a'.data = a.data ∧ a'.capacity = a.capacity ∧
          ∃ d block, a.data = some d ∧ h[d]? = some block ∧ h' = h.set d (block.set a.count v)) ∨
        a.capacity ≤ a.count ∧ a'.data = some h.length ∧ a'.capacity = nextCapacity a.capacity ∧
          ∃ block, h' = h ++ [block]) := by
  have hwhole : ¬a.oom = true := by
    rw [hr.whole]
    exact Bool.false_ne_true
  unfold push
  rw [if_neg hwhole]
  by_cases hroom : a.capacity ≤ a.count
  · rw [if_pos hroom, if_neg (Nat.not_lt.mpr (hgrow hroom))]
    have hold : old h a = some xs ∧ a.count = a.capacity := by
      unfold old
      rcases hr.block with ⟨-, hcount, hzero, rfl⟩ | ⟨d, block, hdata, hblock, -, hle, rfl⟩
      · exact ⟨if_pos hcount, hcount.trans hzero.symm⟩
      · refine ⟨?_, by omega⟩
        rw [hdata, Option.bind_some, hblock, Option.map_some]
        split
        · next hzero => rw [hzero, List.take_zero]
        · rfl
    rw [hold.1, Option.bind_some]
    dsimp only
    have hnext := lt_nextCapacity a.capacity
    have hlength := hr.length
    obtain ⟨fresh, hfresh⟩ : ∃ fresh, fresh = xs ++ (List.range (nextCapacity a.capacity - xs.length)).map
        (junk h.length) := ⟨_, rfl⟩
    rw [← hfresh]
    have hgrown : Reads (h ++ [fresh]) { a with data := some h.length, capacity := nextCapacity a.capacity } xs := by
      refine ⟨hr.whole, .inr ⟨h.length, fresh, rfl, List.getElem?_concat_length, ?_, ?_, ?_⟩⟩
      · rw [hfresh, List.length_append, List.length_map, List.length_range]
        dsimp only
        omega
      · dsimp only
        omega
      · rw [hfresh, ← hlength, List.take_left]
    obtain ⟨d, block, hdata, hblock, hstore, hreads⟩ := store_spec hgrown (by dsimp only; omega) v
    obtain rfl := Option.some.inj hdata
    rw [List.getElem?_concat_length] at hblock
    obtain rfl := Option.some.inj hblock
    refine ⟨_, _, hstore, hreads, rfl, .inr ⟨hroom, rfl, rfl, fresh.set a.count v, ?_⟩⟩
    dsimp only
    rw [List.set_append_right _ _ (Nat.le_refl _), Nat.sub_self]
    rfl
  · rw [if_neg hroom]
    obtain ⟨d, block, hdata, hblock, hstore, hreads⟩ := store_spec hr (Nat.lt_of_not_le hroom) v
    exact ⟨_, _, hstore, hreads, rfl, .inl ⟨Nat.lt_of_not_le hroom, rfl, rfl, d, block, hdata, hblock, rfl⟩⟩

/-! ## Extending a list -/

/-- The state of a loop that pushes `ys` onto a copy of `a₀`, `i` of them so far, while `made` are in use. -/
structure Extending (made : List (CList × List E)) (a₀ : CList) (xs ys : List E) (i : Nat) (h : Blocks E) (a : CList) :
    Prop where
  reads : Reads h a (xs ++ ys.take i)
  count : a.count = a₀.count + i
  kept : ∀ p ∈ made, Reads h p.1 p.2
  own : a.data = a₀.data ∧ a.capacity = a₀.capacity ∨ ∀ p ∈ made, p.1.data ≠ a.data
  doubled : ∃ j, a.capacity = nextCapacity^[j] a₀.capacity

variable {made : List (CList × List E)} {a₀ : CList}

variable (junk) in
/-- The next element. -/
theorem Extending.push (he : Extending made a₀ xs ys i h a) (hi : i < ys.length)
    (hunshared : Unshared made a₀ ys)
    (hdoubles : Doubles a₀.capacity (a₀.count + ys.length)) :
    ∃ h' a', CList.push junk h a ys[i] = some (h', a') ∧ Extending made a₀ xs ys (i + 1) h' a' := by
  obtain ⟨j, hj⟩ := he.doubled
  have hcount := he.count
  obtain ⟨h', a', hpush, hreads, hcount', hplace⟩ := push_spec junk he.reads ys[i] (by
    intro hfull
    have hstop := hdoubles j
    rw [← hj] at hstop
    exact hstop (by omega))
  have htake : xs ++ ys.take i ++ [ys[i]] = xs ++ ys.take (i + 1) := by
    rw [List.append_assoc, List.take_append_getElem hi]
  rw [htake] at hreads
  refine ⟨h', a', hpush, hreads, by omega, ?_, ?_, ?_⟩
  · intro p hp
    rcases hplace with ⟨hroom, -, -, d, block, hdata, hblock, rfl⟩ | ⟨-, -, -, block, rfl⟩
    · refine (he.kept p hp).set hblock fun hpd hlt => ?_
      rcases he.own with ⟨hsame, hcap⟩ | hown
      · have hget := hunshared p hp (hpd.trans (hdata.symm.trans hsame)) a.count (by omega) (by omega) hlt
        have hpos : a.count - a₀.count = i := by omega
        rw [hget, hpos, List.getElem?_eq_getElem hi]
      · exact absurd (hpd.trans hdata.symm) (hown p hp)
    · exact (he.kept p hp).append block
  · rcases hplace with ⟨-, hdata, hcap, -⟩ | ⟨-, hdata, -, -⟩
    · rw [hdata, hcap]
      exact he.own
    · refine .inr fun p hp hpd => ?_
      rw [hdata] at hpd
      exact Nat.lt_irrefl _ ((he.kept p hp).lt hpd)
  · rcases hplace with ⟨-, -, hcap, -⟩ | ⟨-, -, hcap, -⟩
    · exact ⟨j, hcap.trans hj⟩
    · refine ⟨j + 1, ?_⟩
      rw [Function.iterate_succ_apply', ← hj, hcap]

variable (junk) in
/-- **The loop of `_concat`.** -/
theorem concatFrom_spec (hb : (b, ys) ∈ made)
    (hunshared : Unshared made a₀ ys)
    (hdoubles : Doubles a₀.capacity (a₀.count + ys.length)) (left : Nat) (hleft : i + left = ys.length)
    (he : Extending made a₀ xs ys i h a) :
    ∃ h' a', concatFrom junk b left i h a = some (h', a') ∧ Extending made a₀ xs ys ys.length h' a' := by
  induction left generalizing i h a with
  | zero =>
    obtain rfl : i = ys.length := hleft
    exact ⟨h, a, rfl, he⟩
  | succ left ih =>
    have hi : i < ys.length := by omega
    obtain ⟨h', a', hpush, he'⟩ := he.push junk hi hunshared hdoubles
    obtain ⟨h'', a'', hconcat, hend⟩ := ih (by omega) he'
    refine ⟨h'', a'', ?_, hend⟩
    rw [concatFrom, (he.kept _ hb).read hi, List.getElem?_eq_getElem hi, Option.bind_some, hpush, Option.bind_some]
    exact hconcat

variable (junk) in
/-- **The code of a literal.** -/
theorem lit_spec (hunshared : Unshared made a₀ ys) (hdoubles : Doubles a₀.capacity (a₀.count + ys.length)) (rest : List E) (hrest : ys.drop i = rest)
    (hle : i ≤ ys.length) (he : Extending made a₀ xs ys i h a) :
    ∃ h' a', lit junk h a rest = some (h', a') ∧ Extending made a₀ xs ys ys.length h' a' := by
  induction rest generalizing i h a with
  | nil =>
    obtain rfl : i = ys.length := Nat.le_antisymm hle (List.drop_eq_nil_iff.mp hrest)
    exact ⟨h, a, rfl, he⟩
  | cons y rest ih =>
    have hi : i < ys.length := by
      rw [← Nat.not_le, ← List.drop_eq_nil_iff, hrest]
      exact List.cons_ne_nil y rest
    rw [List.drop_eq_getElem_cons hi] at hrest
    obtain ⟨rfl, hdrop⟩ := List.cons.inj hrest
    obtain ⟨h', a', hpush, he'⟩ := he.push junk hi hunshared hdoubles
    obtain ⟨h'', a'', hlit, hend⟩ := ih hdrop hi he'
    refine ⟨h'', a'', ?_, hend⟩
    rw [lit, hpush, Option.bind_some]
    exact hlit

/-- Where a loop starts. -/
theorem Extending.start (hkept : ∀ p ∈ made, Reads h p.1 p.2) (hr : Reads h a₀ xs) : Extending made a₀ xs ys 0 h a₀ where
  reads := by
    rw [List.take_zero, List.append_nil]
    exact hr
  count := rfl
  kept := hkept
  own := .inl ⟨rfl, rfl⟩
  doubled := ⟨0, rfl⟩

theorem make_reads : Reads h make [] := ⟨rfl, .inl ⟨rfl, rfl, rfl, rfl⟩⟩

/-- Storage of its own. -/
theorem fromArr_spec (h : Blocks E) (arr : List E) :
    Reads (fromArr h arr).1 (fromArr h arr).2 arr ∧ ∀ a xs, Reads h a xs → Reads (fromArr h arr).1 a xs := by
  unfold fromArr
  by_cases hempty : arr.length = 0
  · rw [if_pos hempty, List.length_eq_zero_iff.mp hempty]
    exact ⟨make_reads, fun a xs hr => hr⟩
  · rw [if_neg hempty]
    refine ⟨⟨rfl, .inr ⟨h.length, arr, rfl, List.getElem?_concat_length, rfl, Nat.le_refl _, List.take_length⟩⟩, ?_⟩
    exact fun a xs hr => hr.append arr

end CList

/-! ## A run -/

namespace ListState

/-- **What holds of every state**: each value that was made reads as it does in C++, and each name has one. -/
structure Held (s : ListState E) : Prop where
  reads : ∀ p ∈ s.made, p.1.Reads s.blocks p.2
  bound : ∀ x, (s.env x, s.vectors x) ∈ s.made

variable {junk : Nat → Nat → E} {s s' : ListState E} {op : ListOp E} {ops : List (ListOp E)}

theorem held_init : (init : ListState E).Held where
  reads p hp := by
    obtain rfl := List.mem_singleton.mp hp
    exact CList.make_reads
  bound _ := List.mem_singleton.mpr rfl

variable (junk) in
/-- **What is made reads as it does in C++**, and whatever else was made reads on. -/
theorem make_spec (hs : s.Held) (hfine : s.Fine op) :
    ∃ h' a, s.make junk op = some (h', a) ∧ a.Reads h' (s.vector op) ∧ ∀ p ∈ s.made, p.1.Reads h' p.2 := by
  cases op with
  | lit x elems =>
    have hunshared : Unshared s.made .make elems := by
      intro p _ _ i hi
      exact absurd hi (by simp [CList.make])
    have hdoubles : Doubles CList.make.capacity (CList.make.count + elems.length) := by
      rw [show CList.make.count = 0 from rfl, Nat.zero_add]
      exact hfine
    obtain ⟨h', a, hlit, hend⟩ := CList.lit_spec junk hunshared hdoubles elems rfl (Nat.zero_le _)
      (CList.Extending.start hs.reads CList.make_reads)
    refine ⟨h', a, hlit, ?_, hend.kept⟩
    have hreads := hend.reads
    rwa [List.take_length, List.nil_append] at hreads
  | seq x arr =>
    obtain ⟨hreads, hkept⟩ := CList.fromArr_spec s.blocks arr
    exact ⟨_, _, rfl, hreads, fun p hp => hkept _ _ (hs.reads p hp)⟩
  | concat x left right =>
    obtain ⟨hunshared, hdoubles⟩ := hfine
    have hright := hs.reads _ (hs.bound right)
    have hcount : (s.env right).count = (s.vectors right).length := hright.length.symm
    rw [hcount] at hdoubles
    obtain ⟨h', a, hconcat, hend⟩ := CList.concatFrom_spec junk (hs.bound right) hunshared hdoubles _
      (Nat.zero_add _) (CList.Extending.start hs.reads (hs.reads _ (hs.bound left)))
    refine ⟨h', a, ?_, ?_, hend.kept⟩
    · change CList.concat junk s.blocks (s.env left) (s.env right) = _
      rw [CList.concat, hcount, hconcat, Option.map_some, hright.whole]
      rfl
    · have hreads := hend.reads
      rwa [List.take_length] at hreads
  | bind x y => exact ⟨s.blocks, s.env y, rfl, hs.reads _ (hs.bound y), hs.reads⟩

variable (junk) in
/-- **One step.** -/
theorem step_spec (hs : s.Held) (hfine : s.Fine op) : ∃ s', s.step junk op = some s' ∧ s'.Held := by
  obtain ⟨h', a, hmake, hreads, hkept⟩ := make_spec junk hs hfine
  refine ⟨_, by rw [step, hmake, Option.map_some], ?_, ?_⟩
  · intro p hp
    rcases List.mem_cons.mp hp with rfl | hp
    · exact hreads
    · exact hkept p hp
  · intro x
    dsimp only
    by_cases hx : x = op.name
    · subst hx
      rw [Function.update_self, Function.update_self]
      exact List.mem_cons_self
    · rw [Function.update_of_ne hx, Function.update_of_ne hx]
      exact List.mem_cons_of_mem _ (hs.bound x)

/-- **A run.** -/
theorem run_spec (hs : s.Held) (hfine : s.FineRun junk ops) : ∃ s', s.run junk ops = some s' ∧ s'.Held := by
  induction ops generalizing s with
  | nil => exact ⟨s, rfl, hs⟩
  | cons op ops ih =>
    obtain ⟨hop, hops⟩ := hfine
    obtain ⟨s', hstep, hs'⟩ := step_spec junk hs hop
    obtain ⟨s'', hrun, hs''⟩ := ih hs' (hops s' hstep)
    exact ⟨s'', by rw [run, hstep, Option.bind_some, hrun], hs''⟩

theorem Held.valued (hs : s.Held) (zero : E) : s.Valued zero := by
  intro p hp
  have hreads := hs.reads p hp
  exact ⟨hreads.elems, hreads.length.symm, hreads.at_ zero⟩

end ListState

/-- **Lists are values**: in a run that extends no list over what another value counts, each value that was made reads
as it does in C++ for ever after. -/
theorem lists_keep (junk : Nat → Nat → E) (zero : E) (ops : List (ListOp E))
    (hfine : ListState.init.FineRun junk ops) :
    ∃ s, ListState.init.run junk ops = some s ∧ s.Valued zero := by
  obtain ⟨s, hrun, hs⟩ := ListState.run_spec ListState.held_init hfine
  exact ⟨s, hrun, hs.valued zero⟩

/-- Far below the bound. -/
theorem doubles_of_le {needed : Nat} (c : Nat) (hneeded : needed ≤ 2 ^ 30) : Doubles c needed := by
  intro j hj
  have hhalf : intMax / 2 = 2 ^ 30 - 1 := rfl
  omega

/-- Elements that are gathered in one name. -/
theorem lists_keep_gathered :
    ∃ s, ListState.init.run (fun _ _ => 0) [.lit 0 [1, 2, 3], .lit 1 [4], .concat 0 0 1, .concat 0 0 1] = some s ∧
      s.Valued 0 := by
  refine lists_keep _ 0 _ ⟨doubles_of_le _ (by decide), fun s hs => ?_⟩
  obtain rfl := Option.some.inj hs
  refine ⟨doubles_of_le _ (by decide), fun s hs => ?_⟩
  obtain rfl := Option.some.inj hs
  refine ⟨⟨by decide, doubles_of_le _ (by decide)⟩, fun s hs => ?_⟩
  obtain rfl := Option.some.inj hs
  exact ⟨⟨by decide, doubles_of_le _ (by decide)⟩, fun s hs => trivial⟩

/-- **A list that is extended twice**: the second extension writes over the first. -/
theorem extended_twice :
    ∃ s, ListState.init.run (fun _ _ => 0) [.lit 0 [1, 2, 3], .lit 1 [4], .lit 2 [5], .concat 3 0 1, .concat 4 0 2] =
      some s ∧ ¬s.Valued 0 := by
  refine ⟨_, rfl, fun hvalued => ?_⟩
  have hfirst := (hvalued (_, [1, 2, 3, 4]) (List.mem_cons_of_mem _ List.mem_cons_self)).1
  exact absurd hfirst (by decide)

end Bbq.Ddcgc
