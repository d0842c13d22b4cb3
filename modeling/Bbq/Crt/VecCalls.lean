import Bbq.Crt.Vec
import Bbq.Lib.Splice

/-!
# Vectors keep what they hold

* Each operation does to the list that a vector stands for what it does to a plain one, but for the growths that are
  refused. `VecAnswers` says so, call by call.
* **`calls_held`**: in any run no write goes through the sentinel or past a block, the length is between 0 and the
  capacity, and a push onto a poisoned vector does nothing.
-/

namespace Bbq.Crt

open Bbq.Lib

variable {T : Type}

namespace Vec

variable {v : Vec T} {h : VecHdr} {data : List T} {junk : Nat → Nat → T} {elemSize : Nat}

/-! ## The operations -/

variable (junk elemSize) in
/-- **`bbq_vec_push`**: the element is behind the others, or the vector is poisoned. -/
theorem push_spec (hs : v.Sound) (x : T) (a : Alloc) :
    ∃ ok v' a', v.push junk elemSize x a = some (ok, v', a') ∧ a.Follows a' ∧ v'.Sound ∧
      match ok with
      | true => v'.held.elems = v.held.elems ++ [x] ∧ v.held.poisoned = false ∧ v'.held.poisoned = false
      | false => v'.held = { v.held with poisoned := true } ∧
          (v.held.poisoned = true ∨ Refused a a' ∨ Beyond elemSize (max (2 * v.held.cap) 8)) := by
  have hgrown : ∃ v' a', (if v.cap ≤ v.len then v.grow junk elemSize a else some (v, a)) = some (v', a') ∧ a.Follows a' ∧
      v'.Sound ∧ v'.held.elems = v.held.elems ∧
      (v.held.poisoned = false ∧ v'.held.poisoned = false ∧ v'.held.elems.length < v'.held.cap ∨
        v'.held = { v.held with poisoned := true } ∧
          (v.held.poisoned = true ∨ Refused a a' ∨ Beyond elemSize (max (2 * v.held.cap) 8))) := by
    have hlen := length_le hs
    by_cases hfull : v.cap ≤ v.len
    · rw [if_pos hfull]
      obtain ⟨v', a', hgrow, hfollows, hsound, helems, hroom⟩ := grow_spec junk elemSize hs a
      refine ⟨v', a', hgrow, hfollows, hsound, helems, hroom.imp_left fun ⟨hnot, hnot', hcap⟩ => ⟨hnot, hnot', ?_⟩⟩
      rw [helems]
      exact Nat.lt_of_le_of_lt hlen hcap
    · rw [if_neg hfull]
      rw [cap_eq, len_eq hs] at hfull
      cases hpoisoned : v.held.poisoned with
      | true =>
        rw [hpoisoned, if_pos rfl] at hfull
        omega
      | false =>
        rw [hpoisoned, if_neg Bool.false_ne_true] at hfull
        exact ⟨v, a, rfl, ⟨rfl, le_refl _⟩, hs, rfl, .inl ⟨rfl, hpoisoned, by omega⟩⟩
  obtain ⟨v', a', hgrow, hfollows, hsound, helems, hroom⟩ := hgrown
  unfold push
  rw [hgrow, Option.bind_some]
  dsimp only
  rw [oom_eq]
  rcases hroom with ⟨hnot, hnot', hcap⟩ | ⟨hheld, hwhy⟩
  · rw [if_neg (by rw [hnot']; exact Bool.false_ne_true)]
    cases v' with
    | null => exact absurd hcap (Nat.not_lt_zero _)
    | sentinel => exact absurd hcap (Nat.not_lt_zero _)
    | block h data =>
      obtain ⟨hlow, hhigh, hdata, hceil⟩ := hsound
      have hlength : (data.take h.len.toNat).length < h.realCap := hcap
      rw [List.length_take] at hlength
      have hin : 0 ≤ h.len ∧ h.len.toNat < data.length := by omega
      refine ⟨true, block { h with len := h.len + 1 } (data.set h.len.toNat x), a', ?_, hfollows, ?_, ?_, hnot, hnot'⟩
      · simp only [hdr, store, setHdr, if_pos hin, Option.bind_some, Option.map_some]
      · refine ⟨by dsimp only; omega, ?_, by rw [List.length_set]; exact hdata, hceil⟩
        change h.len + 1 ≤ (h.realCap : Int)
        omega
      · rw [← helems]
        have hnat : (h.len + 1).toNat = h.len.toNat + 1 := by omega
        change (data.set h.len.toNat x).take (h.len + 1).toNat = data.take h.len.toNat ++ [x]
        rw [hnat]
        exact take_set_succ x hin.2
  · rw [if_pos (by rw [hheld])]
    exact ⟨false, v', a', rfl, hfollows, hsound, hheld, hwhy⟩

/-- A push onto a poisoned vector does nothing at all. -/
theorem push_poisoned (hs : v.Sound) (hpoisoned : v.held.poisoned = true) (x : T) (a : Alloc) :
    v.push junk elemSize x a = some (false, v, a) := by
  have hfull : v.cap ≤ v.len := by
    rw [cap_eq, len_eq hs, hpoisoned, if_pos rfl]
    exact Int.natCast_nonneg _
  have hoom : v.oom = true := (oom_eq v).trans hpoisoned
  rw [push, if_pos hfull, grow, if_pos hoom, Option.bind_some]
  exact if_pos hoom

variable (junk elemSize) in
/-- **`bbq_vec_reserve`**: there is the room, or the vector is poisoned. -/
theorem reserve_spec (hs : v.Sound) (n : Int) (a : Alloc) :
    ∃ ok v' a', v.reserve junk elemSize n a = some (ok, v', a') ∧ a.Follows a' ∧ v'.Sound ∧
      v'.held.elems = v.held.elems ∧ (v.held.poisoned = true → v'.held.poisoned = true) ∧
      match ok with
      | true => n ≤ v'.held.cap
      | false => v'.held = { v.held with poisoned := true } ∧
          (v.held.poisoned = true ∨ Refused a a' ∨ Beyond elemSize n.toNat) := by
  unfold reserve
  by_cases hroom : v.cap < n
  · obtain ⟨v', a', hresize, hgrown⟩ := resize_spec junk elemSize hs n.toNat a (by
      have hcap := cap_eq v
      split at hcap
      · omega
      · omega)
    rw [if_pos hroom, hresize, Option.map_some]
    rcases hgrown.room with ⟨hnot, hnot', hcap⟩ | ⟨hheld, hwhy⟩
    · have hok : n ≤ v'.cap := by
        rw [cap_eq, hnot', if_neg Bool.false_ne_true]
        omega
      refine ⟨true, v', a', by dsimp only; rw [decide_eq_true hok], hgrown.follows, hgrown.sound, hgrown.elems, ?_, by omega⟩
      rw [hnot]
      intro h
      cases h
    · have hok : ¬n ≤ v'.cap := by
        have hcap := cap_eq v
        rw [cap_eq v', hheld, if_pos rfl]
        split at hcap
        · omega
        · omega
      exact ⟨false, v', a', by dsimp only; rw [decide_eq_false hok], hgrown.follows, hgrown.sound, hgrown.elems,
        fun _ => by rw [hheld], hheld, hwhy⟩
  · rw [if_neg hroom, Option.map_some]
    have hok : n ≤ v.cap := by omega
    refine ⟨true, v, a, by dsimp only; rw [decide_eq_true hok], ⟨rfl, le_refl _⟩, hs, rfl, id, ?_⟩
    rw [cap_eq] at hok
    split at hok
    · dsimp only
      omega
    · exact hok

theorem setlen_block (h : VecHdr) (data : List T) (n : Int) :
    (block h data).setlen n = some (block { h with len := (min n.toNat h.realCap : Nat) } data) := by
  have hlen : (if (if n < 0 then 0 else n) < (h.realCap : Int) then if n < 0 then 0 else n else (h.realCap : Int)) =
      (min n.toNat h.realCap : Nat) := by
    split
    · split
      · omega
      · omega
    · split
      · omega
      · omega
  rw [← hlen]
  rfl

/-- **`bbq__vec_setlen`** keeps what was there, as far as the new length goes. -/
theorem setlen_spec (hs : v.Sound) (n : Int) :
    ∃ v', v.setlen n = some v' ∧ v'.Sound ∧ v'.held.cap = v.held.cap ∧ v'.held.poisoned = v.held.poisoned ∧
      v'.held.elems.length = min n.toNat v.held.cap ∧
      ∀ i : Nat, i < v.held.elems.length → i < v'.held.elems.length → v'.held.elems[i]? = v.held.elems[i]? := by
  cases v with
  | null => exact ⟨_, rfl, hs, rfl, rfl, (Nat.min_zero _).symm, fun _ _ _ => rfl⟩
  | sentinel => exact ⟨_, rfl, hs, rfl, rfl, (Nat.min_zero _).symm, fun _ _ _ => rfl⟩
  | block h data =>
    obtain ⟨hlow, hhigh, hdata, hceil⟩ := hs
    obtain ⟨k, hk⟩ : ∃ k : Nat, k = min n.toNat h.realCap := ⟨_, rfl⟩
    refine ⟨block { h with len := k } data, ?_, ?_, rfl, rfl, ?_, fun i hi hi' => ?_⟩
    · rw [setlen_block, hk]
    · refine ⟨Int.natCast_nonneg _, ?_, hdata, hceil⟩
      change (k : Int) ≤ (h.realCap : Int)
      omega
    · change (data.take (k : Int).toNat).length = min n.toNat h.realCap
      rw [List.length_take, Int.toNat_natCast]
      omega
    · change (data.take (k : Int).toNat)[i]? = (data.take h.len.toNat)[i]?
      rw [List.getElem?_take_of_lt (lt_of_lt_of_le hi' (List.length_take_le _ _)),
        List.getElem?_take_of_lt (lt_of_lt_of_le hi (List.length_take_le _ _))]

/-- **`bbq__vec_truncate`**. -/
theorem truncate_spec (hs : v.Sound) (n : Int) :
    ∃ v', v.truncate n = some v' ∧ v'.Sound ∧ v'.held = { v.held with elems := v.held.elems.take n.toNat } := by
  cases v with
  | null => exact ⟨_, rfl, hs, by rw [held, List.take_nil]⟩
  | sentinel => exact ⟨_, rfl, hs, by rw [held, List.take_nil]⟩
  | block h data =>
    obtain ⟨hlow, hhigh, hdata, hceil⟩ := hs
    obtain ⟨k, hk, hn⟩ : ∃ k : Nat, k = n.toNat ∧ (if n < 0 then 0 else n) = k := by
      refine ⟨_, rfl, ?_⟩
      split
      · omega
      · omega
    rw [← hk]
    have htruncate : (block h data).truncate n = if (k : Int) < h.len then some (block { h with len := k } data)
        else some (block h data) := by
      rw [← hn]
      rfl
    rw [htruncate]
    by_cases hless : (k : Int) < h.len
    · rw [if_pos hless]
      refine ⟨_, rfl, ⟨Int.natCast_nonneg _, ?_, hdata, hceil⟩, ?_⟩
      · change (k : Int) ≤ (h.realCap : Int)
        omega
      · have htake : data.take k = (data.take h.len.toNat).take k := by
          rw [List.take_take, Nat.min_eq_left (by omega)]
        change ({ elems := data.take (k : Int).toNat, cap := _, poisoned := _ } : Held T) = _
        rw [Int.toNat_natCast, htake]
        rfl
    · rw [if_neg hless]
      refine ⟨_, rfl, ⟨hlow, hhigh, hdata, hceil⟩, ?_⟩
      have htake : (data.take h.len.toNat).take k = data.take h.len.toNat := by
        rw [List.take_take, Nat.min_eq_right (by omega)]
      change _ = ({ elems := (data.take h.len.toNat).take k, cap := _, poisoned := _ } : Held T)
      rw [htake]
      rfl

/-- **`bbq_vec_pop`** takes the last element. -/
theorem pop_spec (hs : v.Sound) :
    ∃ x v', v.pop = some (x, v') ∧ v'.Sound ∧ v'.held = { v.held with elems := v.held.elems.dropLast } ∧
      (v.held.elems ≠ [] → x = v.held.elems.getLast?) := by
  cases v with
  | null => exact ⟨_, _, rfl, hs, rfl, fun hne => absurd rfl hne⟩
  | sentinel => exact ⟨_, _, rfl, hs, rfl, fun hne => absurd rfl hne⟩
  | block h data =>
    obtain ⟨hlow, hhigh, hdata, hceil⟩ := hs
    by_cases hempty : h.len ≤ 0
    · have hpop : (block h data).pop = some ((block h data).read 0, block h data) := by
        simp only [pop, popi, isNull, isSentinel, hdr, Bool.or_self, Bool.false_eq_true, if_false, Option.bind_some,
          if_pos hempty, Option.map_some]
      have hzero : h.len.toNat = 0 := by omega
      have helems : (block h data).held.elems = [] := by
        change data.take h.len.toNat = []
        rw [hzero]
        rfl
      refine ⟨_, _, hpop, ⟨hlow, hhigh, hdata, hceil⟩, ?_, fun hne => absurd helems hne⟩
      rw [helems, List.dropLast_nil, ← helems]
    · have hpop : (block h data).pop =
          some (data[(h.len - 1).toNat]?, block { h with len := h.len - 1 } data) := by
        simp only [pop, popi, isNull, isSentinel, hdr, Bool.or_self, Bool.false_eq_true, if_false, Option.bind_some,
          if_neg hempty, setHdr, Option.map_some, read, if_pos (by omega : 0 ≤ h.len - 1)]
      have hpred : (h.len - 1).toNat = h.len.toNat - 1 := by omega
      have hlength : (data.take h.len.toNat).length = h.len.toNat := by
        rw [List.length_take]
        omega
      refine ⟨_, _, hpop, ⟨by dsimp only; omega, ?_, hdata, hceil⟩, ?_, fun _ => ?_⟩
      · change h.len - 1 ≤ (h.realCap : Int)
        omega
      · have hdrop : (data.take h.len.toNat).dropLast = data.take (h.len.toNat - 1) := by
          rw [List.dropLast_eq_take, hlength, List.take_take, Nat.min_eq_left (Nat.sub_le _ _)]
        change ({ elems := data.take (h.len - 1).toNat, cap := _, poisoned := _ } : Held T) =
          { elems := (data.take h.len.toNat).dropLast, cap := _, poisoned := _ }
        rw [hdrop, hpred]
        rfl
      · change _ = (data.take h.len.toNat).getLast?
        rw [List.getLast?_eq_getElem?, hlength, hpred, List.getElem?_take_of_lt (by omega)]

/-- The loop of `bbq_vec_fill` writes the elements behind the first `i`. -/
theorem fillFrom_spec (x : T) (left i : Nat) (data : List T) (hroom : i + left ≤ data.length) :
    ∃ data', fillFrom x left i (block h data) = some (block h data') ∧ data'.length = data.length ∧
      data'.take (i + left) = data.take i ++ List.replicate left x := by
  induction left generalizing i data with
  | zero => exact ⟨data, rfl, rfl, (List.append_nil _).symm⟩
  | succ left ih =>
    have hin : 0 ≤ (i : Int) ∧ (i : Int).toNat < data.length := ⟨Int.natCast_nonneg _, by omega⟩
    obtain ⟨data', hfill, hlength, htake⟩ := ih (i + 1) (data.set i x) (by rw [List.length_set]; omega)
    refine ⟨data', ?_, by rw [hlength, List.length_set], ?_⟩
    · rw [fillFrom, store, if_pos hin, Option.bind_some, Int.toNat_natCast, hfill]
    · have hsum : i + (left + 1) = i + 1 + left := by omega
      rw [hsum, htake, take_set_succ x (by omega), List.append_assoc]
      rfl

variable (junk elemSize) in
/-- **`bbq_vec_fill`**: the length is that many at least, or nothing changes but that the vector is poisoned. -/
theorem fill_spec (hs : v.Sound) (n : Int) (x : T) (a : Alloc) :
    ∃ ok v' a', v.fill junk elemSize n x a = some (ok, v', a') ∧ a.Follows a' ∧ v'.Sound ∧
      (v.held.poisoned = true → v'.held.poisoned = true) ∧
      match ok with
      | true => v'.held.elems = v.held.elems ++ List.replicate (n.toNat - v.held.elems.length) x
      | false => v'.held = { v.held with poisoned := true } ∧
          (v.held.poisoned = true ∨ Refused a a' ∨ Beyond elemSize n.toNat) := by
  obtain ⟨ok, v', a', hreserve, hfollows, hsound, helems, hsticky, hres⟩ :=
    reserve_spec junk elemSize hs n a
  unfold fill
  rw [hreserve, Option.bind_some]
  cases ok with
  | false => exact ⟨false, v', a', rfl, hfollows, hsound, hsticky, hres⟩
  | true =>
    dsimp only at hres ⊢
    rw [len_eq hsound, helems]
    by_cases hmore : (v.held.elems.length : Int) < n
    · cases v' with
      | null => exact absurd hres (by change ¬n ≤ 0; omega)
      | sentinel => exact absurd hres (by change ¬n ≤ 0; omega)
      | block h data =>
        obtain ⟨hlow, hhigh, hdata, hceil⟩ := hsound
        have hcap : n ≤ (h.realCap : Int) := hres
        have hlen : h.len.toNat = v.held.elems.length := by
          have hlength : (data.take h.len.toNat).length = v.held.elems.length := congrArg List.length helems
          rw [List.length_take] at hlength
          omega
        obtain ⟨data', hfill, hlength, htake⟩ := fillFrom_spec (h := h) x (n - v.held.elems.length).toNat
          v.held.elems.length data (by omega)
        have hmin : min n.toNat h.realCap = n.toNat := by omega
        have hsum : v.held.elems.length + (n - v.held.elems.length).toNat = n.toNat := by omega
        have hleft : (n - v.held.elems.length).toNat = n.toNat - v.held.elems.length := by omega
        have hshort : (block h data').len < n := by
          change h.len < n
          omega
        rw [Int.toNat_natCast, hfill, Option.bind_some, if_pos hshort, setlen_block, Option.map_some, hmin]
        refine ⟨true, _, a', rfl, hfollows, ⟨Int.natCast_nonneg _, ?_, hlength.trans hdata, hceil⟩, hsticky, ?_⟩
        · change (n.toNat : Int) ≤ (h.realCap : Int)
          omega
        · change data'.take (n.toNat : Int).toNat = _
          have hold : data.take v.held.elems.length = v.held.elems := by
            rw [← hlen]
            exact helems
          rw [Int.toNat_natCast, ← hsum, htake, hold, hsum, hleft]
    · have hnone : (n - v.held.elems.length).toNat = 0 := by omega
      have hshort : ¬v'.len < n := by
        rw [len_eq hsound, helems]
        exact hmore
      rw [hnone, fillFrom, Option.bind_some, if_neg hshort]
      refine ⟨true, v', a', rfl, hfollows, hsound, hsticky, ?_⟩
      rw [helems, Nat.sub_eq_zero_of_le (by omega), List.replicate_zero, List.append_nil]

end Vec

/-! ## Runs -/

/-- The calls of a user. -/
inductive VecCall (T : Type)
  | push (x : T)
  | reserve (n : Int)
  | fill (n : Int) (x : T)
  | truncate (n : Int)
  | setlen (n : Int)
  | pop

/-- What they return. -/
inductive VecReply (T : Type)
  | done (ok : Bool)
  | unit
  | popped (x : Option T)

namespace Vec

variable (junk : Nat → Nat → T) (elemSize : Nat)

def call (v : Vec T) (a : Alloc) : VecCall T → Option (VecReply T × Vec T × Alloc)
  | .push x => (v.push junk elemSize x a).map fun (ok, out) => (.done ok, out)
  | .reserve n => (v.reserve junk elemSize n a).map fun (ok, out) => (.done ok, out)
  | .fill n x => (v.fill junk elemSize n x a).map fun (ok, out) => (.done ok, out)
  | .truncate n => (v.truncate n).map fun v => (.unit, v, a)
  | .setlen n => (v.setlen n).map fun v => (.unit, v, a)
  | .pop => v.pop.map fun (x, v) => (.popped x, v, a)

/-- The replies to a list of calls. -/
def calls (v : Vec T) (a : Alloc) : List (VecCall T) → Option (List (VecReply T) × Vec T × Alloc)
  | [] => some ([], v, a)
  | c :: cs => (v.call junk elemSize a c).bind fun (r, v, a) => (calls v a cs).map fun (rs, out) => (r :: rs, out)

end Vec

/-- What a call does to the list that the vector stands for; `refused` is whether memory was. -/
def VecAnswers (elemSize : Nat) (refused : Prop) (m : Held T) : VecCall T → VecReply T → Held T → Prop
  | .push x, .done true, m' => m'.elems = m.elems ++ [x] ∧ m.poisoned = false ∧ m'.poisoned = false
  | .push _, .done false, m' => m' = { m with poisoned := true } ∧
      (m.poisoned = true ∨ refused ∨ Vec.Beyond elemSize (max (2 * m.cap) 8))
  | .reserve n, .done true, m' => m'.elems = m.elems ∧ n ≤ m'.cap ∧ (m.poisoned = true → m'.poisoned = true)
  | .reserve n, .done false, m' => m' = { m with poisoned := true } ∧
      (m.poisoned = true ∨ refused ∨ Vec.Beyond elemSize n.toNat)
  | .fill n x, .done true, m' => m'.elems = m.elems ++ List.replicate (n.toNat - m.elems.length) x ∧
      (m.poisoned = true → m'.poisoned = true)
  | .fill n _, .done false, m' => m' = { m with poisoned := true } ∧
      (m.poisoned = true ∨ refused ∨ Vec.Beyond elemSize n.toNat)
  | .truncate n, .unit, m' => m' = { m with elems := m.elems.take n.toNat }
  | .setlen n, .unit, m' => m'.cap = m.cap ∧ m'.poisoned = m.poisoned ∧ m'.elems.length = min n.toNat m.cap ∧
      ∀ i : Nat, i < m.elems.length → i < m'.elems.length → m'.elems[i]? = m.elems[i]?
  | .pop, .popped x, m' => m' = { m with elems := m.elems.dropLast } ∧ (m.elems ≠ [] → x = m.elems.getLast?)
  | _, _, _ => False

/-- **Replies that are the list's**, one after the other, while the allocator goes from request to request. -/
inductive VecFollow (elemSize : Nat) (grant : Nat → Bool) : Nat → Held T → List (VecCall T) → List (VecReply T) →
    Nat → Held T → Prop
  | nil {n : Nat} {m : Held T} : VecFollow elemSize grant n m [] [] n m
  | cons {n n' n'' : Nat} {m m' m'' : Held T} {c : VecCall T} {cs : List (VecCall T)} {r : VecReply T}
      {rs : List (VecReply T)} (head : VecAnswers elemSize (∃ i, n ≤ i ∧ i < n' ∧ grant i = false) m c r m')
      (rest : VecFollow elemSize grant n' m' cs rs n'' m'') : VecFollow elemSize grant n m (c :: cs) (r :: rs) n'' m''

namespace Vec

variable {v : Vec T} {junk : Nat → Nat → T} {elemSize : Nat}

variable (junk elemSize) in
/-- **One call** does what it says to the list. -/
theorem call_answers (hs : v.Sound) (a : Alloc) (c : VecCall T) :
    ∃ r v' a', v.call junk elemSize a c = some (r, v', a') ∧ a.Follows a' ∧ v'.Sound ∧
      VecAnswers elemSize (Refused a a') v.held c r v'.held := by
  have hself : a.Follows a := ⟨rfl, le_refl _⟩
  cases c with
  | push x =>
    obtain ⟨ok, v', a', hpush, hfollows, hsound, hres⟩ := push_spec junk elemSize hs x a
    refine ⟨.done ok, v', a', by rw [call, hpush, Option.map_some], hfollows, hsound, ?_⟩
    cases ok with
    | true => exact hres
    | false => exact hres
  | reserve n =>
    obtain ⟨ok, v', a', hreserve, hfollows, hsound, helems, hsticky, hres⟩ :=
      reserve_spec junk elemSize hs n a
    refine ⟨.done ok, v', a', by rw [call, hreserve, Option.map_some], hfollows, hsound, ?_⟩
    cases ok with
    | true => exact ⟨helems, hres, hsticky⟩
    | false => exact hres
  | fill n x =>
    obtain ⟨ok, v', a', hfill, hfollows, hsound, hsticky, hres⟩ :=
      fill_spec junk elemSize hs n x a
    refine ⟨.done ok, v', a', by rw [call, hfill, Option.map_some], hfollows, hsound, ?_⟩
    cases ok with
    | true => exact ⟨hres, hsticky⟩
    | false => exact hres
  | truncate n =>
    obtain ⟨v', htruncate, hsound, hheld⟩ := truncate_spec hs n
    exact ⟨.unit, v', a, by rw [call, htruncate, Option.map_some], hself, hsound, hheld⟩
  | setlen n =>
    obtain ⟨v', hsetlen, hsound, hres⟩ := setlen_spec hs n
    exact ⟨.unit, v', a, by rw [call, hsetlen, Option.map_some], hself, hsound, hres⟩
  | pop =>
    obtain ⟨x, v', hpop, hsound, hheld⟩ := pop_spec hs
    exact ⟨.popped x, v', a, by rw [call, hpop, Option.map_some], hself, hsound, hheld⟩

variable (junk elemSize) in
theorem calls_sound (cs : List (VecCall T)) (hs : v.Sound) (a : Alloc) :
    ∃ rs v' a', v.calls junk elemSize a cs = some (rs, v', a') ∧ v'.Sound ∧
      VecFollow elemSize a.grant a.asked v.held cs rs a'.asked v'.held := by
  induction cs generalizing v a with
  | nil => exact ⟨[], v, a, rfl, hs, .nil⟩
  | cons c cs ih =>
    obtain ⟨r, v', a', hcall, hfollows, hs', hanswer⟩ := call_answers junk elemSize hs a c
    obtain ⟨rs, v'', a'', hcalls, hsound, hreplies⟩ := ih hs' a'
    rw [hfollows.1] at hreplies
    refine ⟨r :: rs, v'', a'', ?_, hsound, .cons hanswer hreplies⟩
    rw [calls, hcall, Option.bind_some]
    dsimp only
    rw [hcalls, Option.map_some]

/-- What the vector gives for an index is the list's element. -/
theorem read_held (hs : v.Sound) {i : Nat} (hi : i < v.held.elems.length) : v.read i = v.held.elems[i]? := by
  cases v with
  | null => exact absurd hi (Nat.not_lt_zero _)
  | sentinel => exact absurd hi (Nat.not_lt_zero _)
  | block h data =>
    change (if 0 ≤ (i : Int) then data[(i : Int).toNat]? else none) = (data.take h.len.toNat)[i]?
    rw [if_pos (Int.natCast_nonneg i), Int.toNat_natCast,
      List.getElem?_take_of_lt (lt_of_lt_of_le hi (List.length_take_le _ _))]

/-- **A vector keeps what it holds**, in any run and under any pattern of refusals. -/
theorem calls_held (junk : Nat → Nat → T) (elemSize : Nat) (grant : Nat → Bool) (cs : List (VecCall T)) :
    ∃ replies v a, (null : Vec T).calls junk elemSize ⟨grant, 0⟩ cs = some (replies, v, a) ∧
      VecFollow elemSize grant 0 { elems := [], cap := 0, poisoned := false } cs replies a.asked v.held ∧
      v.Sound ∧ v.len = v.held.elems.length ∧ v.held.elems.length ≤ v.held.cap ∧ v.oom = v.held.poisoned ∧
      (∀ i : Nat, i < v.held.elems.length → v.read i = v.held.elems[i]?) ∧
      (v.held.poisoned = true → ∀ x, v.push junk elemSize x a = some (false, v, a)) := by
  obtain ⟨replies, v, a, hcalls, hs, hreplies⟩ :=
    calls_sound junk elemSize cs (show (null : Vec T).Sound from trivial) ⟨grant, 0⟩
  exact ⟨replies, v, a, hcalls, hreplies, hs, len_eq hs, length_le hs, oom_eq v, fun i hi => read_held hs hi,
    fun hpoisoned x => push_poisoned hs hpoisoned x a⟩

end Vec

end Bbq.Crt
