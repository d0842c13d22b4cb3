import Bbq.Crt.Dict

/-!
# The vector

`crt/bbq_vec.h`, `crt/bbq_vec.c`: elements behind a header, which is poisoned when a growth is refused.

* A vector is a null pointer, the one sentinel, or a block. The sentinel is in read-only memory: a write through it is
  `none`, as is one through a null pointer or past the block.
* `junk` is what stands in memory that nothing was written to: a block comes from the request that it is given for.
* `Held` is what the vector stands for: a list, the room for it, and whether a growth was refused.
* **`resize_spec`**, **`grow_spec`**: a growth keeps the elements, and makes the room or poisons the vector.
-/

namespace Bbq.Crt

variable {T : Type}

/-- `BBQ_VEC_MAX_CAP`. -/
def vecMaxCap : Nat := 0x3FFFFFFF

/-- `sizeof(bbq_vec_hdr)`. -/
def vecHdrBytes : Nat := 16

/-- `bbq_vec_hdr`, without the allocator. -/
structure VecHdr where
  len : Int
  cap : Int

/-- A `bbq_vec`. -/
inductive Vec (T : Type)
  | null
  | sentinel
  | block (hdr : VecHdr) (data : List T)

/-- `real_cap`. -/
def VecHdr.realCap (h : VecHdr) : Nat := (if 0 ≤ h.cap then h.cap else -1 - h.cap).toNat

/-- `block_bytes`. -/
def blockBytes (n elemSize : Nat) : Nat :=
  if memArrayBytes n elemSize = 0 then 0
  else if sizeMax - vecHdrBytes < memArrayBytes n elemSize then 0
  else vecHdrBytes + memArrayBytes n elemSize

namespace Vec

/-- The header that `bbq__vec_hdr` leads to. -/
def hdr : Vec T → Option VecHdr
  | null => none
  | sentinel => some { len := 0, cap := -1 }
  | block h _ => some h

/-- A header is written. -/
def setHdr (h : VecHdr) : Vec T → Option (Vec T)
  | null | sentinel => none
  | block _ data => some (block h data)

/-- `(v)[i]`, read. -/
def read (i : Int) : Vec T → Option T
  | null | sentinel => none
  | block _ data => if 0 ≤ i then data[i.toNat]? else none

/-- `(v)[i] = x`. -/
def store (i : Int) (x : T) : Vec T → Option (Vec T)
  | null | sentinel => none
  | block h data => if 0 ≤ i ∧ i.toNat < data.length then some (block h (data.set i.toNat x)) else none

/-- What `realloc` takes along. -/
def data : Vec T → List T
  | null | sentinel => []
  | block _ data => data

def isNull : Vec T → Bool
  | null => true
  | sentinel | block _ _ => false

/-- `is_sentinel`. -/
def isSentinel : Vec T → Bool
  | sentinel => true
  | null | block _ _ => false

variable (v : Vec T)

/-- `bbq_vec_len`. -/
def len : Int :=
  match v.hdr with
  | some h => h.len
  | none => 0

/-- `bbq_vec_cap`. -/
def cap : Int :=
  match v.hdr with
  | some h => if 0 < h.cap then h.cap else 0
  | none => 0

/-- `bbq_vec_oom`. -/
def oom : Bool :=
  match v.hdr with
  | some h => decide (h.cap < 0)
  | none => false

/-- `poison`. -/
def poison : Option (Vec T) :=
  match v.hdr with
  | none => some sentinel
  | some h => if 0 ≤ h.cap then v.setHdr { h with cap := -1 - h.cap } else some v

variable (junk : Nat → Nat → T) (elemSize : Nat)

/-- `bbq__vec_resize` behind its first tests. -/
def realloc (oh : VecHdr) (want : Nat) (a : Alloc) : Option (Vec T × Alloc) :=
  if vecMaxCap < want then v.poison.map fun v => (v, a)
  else if blockBytes want elemSize = 0 then v.poison.map fun v => (v, a)
  else
    match a.request with
    | (false, a) => v.poison.map fun v => (v, a)
    | (true, b) =>
      some (block { len := oh.len, cap := want }
        (v.data ++ (List.range (want - v.data.length)).map (junk a.asked)), b)

/-- `bbq__vec_resize`. -/
def resize (want : Nat) (a : Alloc) : Option (Vec T × Alloc) :=
  match v.hdr with
  | none => v.realloc junk elemSize { len := 0, cap := 0 } want a
  | some oh =>
    if oh.cap < 0 then some (v, a)
    else if want ≤ oh.cap.toNat then some (v, a)
    else v.realloc junk elemSize oh want a

/-- `bbq__vec_grow`. -/
def grow (a : Alloc) : Option (Vec T × Alloc) :=
  if v.oom then some (v, a)
  else
    let oldcap := v.cap.toNat
    let want := if oldcap = 0 then 8 else oldcap * 2
    let want := if vecMaxCap < want then vecMaxCap else want
    if want ≤ oldcap then v.poison.map fun v => (v, a) else v.resize junk elemSize want a

/-- `bbq_vec_push_a`, with the value of `bbq_vec_try_push_a`. -/
def push (x : T) (a : Alloc) : Option (Bool × Vec T × Alloc) :=
  (if v.cap ≤ v.len then v.grow junk elemSize a else some (v, a)).bind fun (v, a) =>
    if v.oom then some (false, v, a)
    else
      v.hdr.bind fun h => (v.store h.len x).bind fun v =>
        (v.setHdr { h with len := h.len + 1 }).map fun v => (true, v, a)

/-- `bbq_vec_reserve_a`, with the value of `bbq_vec_try_reserve_a`. -/
def reserve (n : Int) (a : Alloc) : Option (Bool × Vec T × Alloc) :=
  (if v.cap < n then v.resize junk elemSize n.toNat a else some (v, a)).map fun (v, a) => (decide (n ≤ v.cap), v, a)

/-- `bbq__vec_setlen`. -/
def setlen (n : Int) : Option (Vec T) :=
  if v.isNull || v.isSentinel then some v
  else
    v.hdr.bind fun h =>
      let n := if n < 0 then 0 else n
      v.setHdr { h with len := if n < h.realCap then n else h.realCap }

/-- The loop of `bbq_vec_fill_a`, for `left` elements from `i` on. -/
def fillFrom (x : T) : Nat → Nat → Vec T → Option (Vec T)
  | 0, _, v => some v
  | left + 1, i, v => (v.store i x).bind (fillFrom x left (i + 1))

/-- `bbq_vec_fill_a`. -/
def fill (n : Int) (x : T) (a : Alloc) : Option (Bool × Vec T × Alloc) :=
  (v.reserve junk elemSize n a).bind fun
    | (false, v, a) => some (false, v, a)
    | (true, v, a) =>
      (fillFrom x (n - v.len).toNat v.len.toNat v).bind fun v =>
        if v.len < n then (v.setlen n).map fun v => (true, v, a) else some (true, v, a)

/-- `bbq__vec_truncate`. -/
def truncate (n : Int) : Option (Vec T) :=
  if v.isNull || v.isSentinel then some v
  else
    v.hdr.bind fun h =>
      let n := if n < 0 then 0 else n
      if n < h.len then v.setHdr { h with len := n } else some v

/-- `bbq__vec_popi`. -/
def popi : Option (Int × Vec T) :=
  if v.isNull || v.isSentinel then some (0, v)
  else
    v.hdr.bind fun h =>
      if h.len ≤ 0 then some (0, v) else (v.setHdr { h with len := h.len - 1 }).map fun v => (h.len - 1, v)

/-- `bbq_vec_pop`; what is read of a vector that is empty, against the precondition, is none of its elements. -/
def pop : Option (Option T × Vec T) := v.popi.map fun (i, v) => (v.read i, v)

end Vec

/-! ## What a vector stands for -/

/-- A list, the room that there is, and whether growth was refused. -/
structure Held (T : Type) where
  elems : List T
  cap : Nat
  poisoned : Bool

namespace Vec

/-- What the vector stands for. -/
def held : Vec T → Held T
  | null => { elems := [], cap := 0, poisoned := false }
  | sentinel => { elems := [], cap := 0, poisoned := true }
  | block h data => { elems := data.take h.len.toNat, cap := h.realCap, poisoned := decide (h.cap < 0) }

/-- **The invariant**: the length is between 0 and the real capacity, and that is the block's size. -/
def Sound : Vec T → Prop
  | null | sentinel => True
  | block h data => 0 ≤ h.len ∧ h.len ≤ h.realCap ∧ data.length = h.realCap ∧ h.realCap ≤ vecMaxCap

variable {v v' : Vec T} {h : VecHdr} {data : List T} {junk : Nat → Nat → T} {elemSize : Nat}

/-! ## The macros -/

theorem len_eq (hs : v.Sound) : v.len = v.held.elems.length := by
  cases v with
  | null => rfl
  | sentinel => rfl
  | block h data =>
    obtain ⟨hlow, hhigh, hdata, -⟩ := hs
    change h.len = ((data.take h.len.toNat).length : Int)
    rw [List.length_take]
    omega

theorem oom_eq (v : Vec T) : v.oom = v.held.poisoned := by
  cases v with
  | null => rfl
  | sentinel => rfl
  | block h data => rfl

theorem cap_eq (v : Vec T) : v.cap = if v.held.poisoned then 0 else (v.held.cap : Int) := by
  cases v with
  | null => rfl
  | sentinel => rfl
  | block h data =>
    change (if 0 < h.cap then h.cap else 0) = if decide (h.cap < 0) = true then 0 else (h.realCap : Int)
    unfold VecHdr.realCap
    grind

theorem length_le (hs : v.Sound) : v.held.elems.length ≤ v.held.cap := by
  cases v with
  | null => exact le_refl _
  | sentinel => exact le_refl _
  | block h data =>
    obtain ⟨hlow, hhigh, hdata, -⟩ := hs
    change (data.take h.len.toNat).length ≤ h.realCap
    rw [List.length_take]
    omega

/-! ## Growth -/

theorem poison_spec (hs : v.Sound) :
    ∃ v', v.poison = some v' ∧ v'.Sound ∧ v'.held = { v.held with poisoned := true } := by
  cases v with
  | null => exact ⟨_, rfl, trivial, rfl⟩
  | sentinel => exact ⟨_, rfl, trivial, rfl⟩
  | block h data =>
    unfold poison
    dsimp only [hdr]
    by_cases hcap : 0 ≤ h.cap
    · have hreal : VecHdr.realCap { h with cap := -1 - h.cap } = h.realCap := by
        unfold VecHdr.realCap
        dsimp only
        grind
      rw [if_pos hcap]
      refine ⟨_, rfl, ?_, ?_⟩
      · unfold Sound at hs ⊢
        dsimp only
        rw [hreal]
        exact hs
      · rw [held, hreal, decide_eq_true (by dsimp only; omega)]
        rfl
    · rw [if_neg hcap]
      refine ⟨_, rfl, hs, ?_⟩
      rw [held, decide_eq_true (by omega)]

/-- There is no block of that size. -/
def Beyond (elemSize want : Nat) : Prop := vecMaxCap < want ∨ blockBytes want elemSize = 0

/-- What a growth comes to: the elements stay, and there is the room or the vector is poisoned. -/
structure Grown (elemSize : Nat) (v : Vec T) (a : Alloc) (want : Nat) (v' : Vec T) (a' : Alloc) : Prop where
  follows : a.Follows a'
  sound : v'.Sound
  elems : v'.held.elems = v.held.elems
  room : v.held.poisoned = false ∧ v'.held.poisoned = false ∧ want ≤ v'.held.cap ∨
    v'.held = { v.held with poisoned := true } ∧ (v.held.poisoned = true ∨ Refused a a' ∨ Beyond elemSize want)

theorem Grown.poison (hs : v.Sound) {a a' : Alloc} {want : Nat} (hfollows : a.Follows a')
    (hwhy : Refused a a' ∨ Beyond elemSize want) :
    ∃ v', v.poison.map (fun v => (v, a')) = some (v', a') ∧ Grown elemSize v a want v' a' := by
  obtain ⟨v', hpoison, hsound, hheld⟩ := poison_spec hs
  refine ⟨v', by rw [hpoison, Option.map_some], hfollows, hsound, ?_, .inr ⟨hheld, .inr hwhy⟩⟩
  rw [hheld]

/-- A vector that has no more than its header says, and the header that `bbq__vec_resize` reads. -/
def Header (v : Vec T) (h : VecHdr) : Prop := v = null ∧ h = { len := 0, cap := 0 } ∨ ∃ data, v = block h data

theorem realloc_spec (hs : v.Sound) (hh : v.Header h) (hcap : 0 ≤ h.cap) (a : Alloc) {want : Nat}
    (hwant : h.cap.toNat < want) :
    ∃ v' a', v.realloc junk elemSize h want a = some (v', a') ∧ Grown elemSize v a want v' a' := by
  have hself : a.Follows a := ⟨rfl, le_refl _⟩
  unfold realloc
  by_cases hmax : vecMaxCap < want
  · rw [if_pos hmax]
    obtain ⟨v', hv', hgrown⟩ := Grown.poison hs hself (.inr (.inl hmax))
    exact ⟨v', a, hv', hgrown⟩
  · rw [if_neg hmax]
    by_cases hbytes : blockBytes want elemSize = 0
    · rw [if_pos hbytes]
      obtain ⟨v', hv', hgrown⟩ := Grown.poison hs hself (.inr (.inr hbytes))
      exact ⟨v', a, hv', hgrown⟩
    · rw [if_neg hbytes]
      have hfollows := request_follows a
      have hrefused := request_refused (a := a)
      generalize a.request = r at hfollows hrefused
      obtain ⟨ok, b⟩ := r
      cases ok with
      | false =>
        obtain ⟨v', hv', hgrown⟩ := Grown.poison hs hfollows (.inl (hrefused rfl))
        exact ⟨v', b, hv', hgrown⟩
      | true =>
        have hreal : VecHdr.realCap { len := h.len, cap := (want : Int) } = want := by
          unfold VecHdr.realCap
          dsimp only
          grind
        have hnot : decide ((want : Int) < 0) = false := decide_eq_false (by omega)
        rcases hh with ⟨rfl, rfl⟩ | ⟨data, rfl⟩
        · refine ⟨_, _, rfl, hfollows, ?_, ?_, .inl ⟨rfl, hnot, ?_⟩⟩
          · refine ⟨le_refl _, Int.natCast_nonneg _, ?_, by rw [hreal]; exact Nat.le_of_not_lt hmax⟩
            rw [hreal, List.length_append, List.length_map, List.length_range]
            exact Nat.zero_add _
          · rfl
          · exact hreal.ge
        · obtain ⟨hlow, hhigh, hdata, hceil⟩ := hs
          have hold : h.realCap = h.cap.toNat := by rw [VecHdr.realCap, if_pos hcap]
          refine ⟨_, _, rfl, hfollows, ?_, ?_, .inl ⟨decide_eq_false (by omega), hnot, hreal.ge⟩⟩
          · refine ⟨hlow, by rw [hreal]; dsimp only; omega, ?_, by rw [hreal]; exact Nat.le_of_not_lt hmax⟩
            rw [hreal, List.length_append, List.length_map, List.length_range]
            change data.length + (want - data.length) = want
            omega
          · refine List.take_append_of_le_length ?_
            change h.len.toNat ≤ data.length
            omega

variable (junk elemSize) in
/-- **`bbq__vec_resize`**. -/
theorem resize_spec (hs : v.Sound) (want : Nat) (a : Alloc) (hwant : 0 < want) :
    ∃ v' a', v.resize junk elemSize want a = some (v', a') ∧ Grown elemSize v a want v' a' := by
  have hself : a.Follows a := ⟨rfl, le_refl _⟩
  cases v with
  | null => exact realloc_spec hs (.inl ⟨rfl, rfl⟩) (le_refl _) a hwant
  | sentinel => exact ⟨sentinel, a, rfl, hself, hs, rfl, .inr ⟨rfl, .inl rfl⟩⟩
  | block h data =>
    unfold resize
    dsimp only [hdr]
    by_cases hpoisoned : h.cap < 0
    · rw [if_pos hpoisoned]
      have hheld : (block h data).held.poisoned = true := decide_eq_true hpoisoned
      refine ⟨_, a, rfl, hself, hs, rfl, .inr ⟨?_, .inl hheld⟩⟩
      rw [← hheld]
    · rw [if_neg hpoisoned]
      have hheld : (block h data).held.poisoned = false := decide_eq_false hpoisoned
      by_cases hroom : want ≤ h.cap.toNat
      · rw [if_pos hroom]
        refine ⟨_, a, rfl, hself, hs, rfl, .inl ⟨hheld, hheld, ?_⟩⟩
        change want ≤ h.realCap
        rw [VecHdr.realCap, if_pos (by omega)]
        exact hroom
      · rw [if_neg hroom]
        exact realloc_spec hs (.inr ⟨data, rfl⟩) (by omega) a (by omega)

theorem Beyond.mono {want more : Nat} (h : Beyond elemSize want) (hwant : 0 < want) (hle : want ≤ more) :
    Beyond elemSize more := by
  have hbytes : want * elemSize ≤ more * elemSize := Nat.mul_le_mul_right elemSize hle
  have hpos : elemSize ≠ 0 → want * elemSize ≠ 0 := fun hsize => Nat.mul_ne_zero hwant.ne' hsize
  unfold Beyond blockBytes memArrayBytes at h ⊢
  grind

variable (junk elemSize) in
/-- **`bbq__vec_grow`** makes room for one more. -/
theorem grow_spec (hs : v.Sound) (a : Alloc) :
    ∃ v' a', v.grow junk elemSize a = some (v', a') ∧ a.Follows a' ∧ v'.Sound ∧ v'.held.elems = v.held.elems ∧
      (v.held.poisoned = false ∧ v'.held.poisoned = false ∧ v.held.cap < v'.held.cap ∨
        v'.held = { v.held with poisoned := true } ∧
          (v.held.poisoned = true ∨ Refused a a' ∨ Beyond elemSize (max (2 * v.held.cap) 8))) := by
  unfold grow
  rw [oom_eq]
  cases hpoisoned : v.held.poisoned with
  | true =>
    refine ⟨v, a, if_pos rfl, ⟨rfl, le_refl _⟩, hs, rfl, .inr ⟨?_, .inl rfl⟩⟩
    rw [← hpoisoned]
  | false =>
    rw [if_neg Bool.false_ne_true, cap_eq, hpoisoned, if_neg Bool.false_ne_true, Int.toNat_natCast]
    dsimp only
    obtain ⟨want, hwant⟩ : ∃ want, want = if vecMaxCap < (if v.held.cap = 0 then 8 else v.held.cap * 2) then vecMaxCap
        else if v.held.cap = 0 then 8 else v.held.cap * 2 := ⟨_, rfl⟩
    rw [← hwant]
    have hbound : want ≤ max (2 * v.held.cap) 8 ∧ (want ≤ v.held.cap → vecMaxCap ≤ v.held.cap) := by
      unfold vecMaxCap at hwant ⊢
      split at hwant
      · split at hwant
        · omega
        · omega
      · split at hwant
        · omega
        · omega
    by_cases hfull : want ≤ v.held.cap
    · rw [if_pos hfull]
      have hmax := hbound.2 hfull
      have hbeyond : Beyond elemSize (max (2 * v.held.cap) 8) := by
        refine .inl ?_
        unfold vecMaxCap at hmax ⊢
        omega
      obtain ⟨v', hv', hsound, hheld⟩ := poison_spec hs
      rw [hv', Option.map_some]
      exact ⟨v', a, rfl, ⟨rfl, le_refl _⟩, hsound, by rw [hheld], .inr ⟨hheld, .inr (.inr hbeyond)⟩⟩
    · rw [if_neg hfull]
      obtain ⟨v', a', hv', hgrown⟩ := resize_spec junk elemSize hs want a (by omega)
      refine ⟨v', a', hv', hgrown.follows, hgrown.sound, hgrown.elems, ?_⟩
      rcases hgrown.room with ⟨-, hnot, hroom⟩ | ⟨hheld, hwhy⟩
      · exact .inl ⟨rfl, hnot, by omega⟩
      · rw [hpoisoned] at hwhy
        exact .inr ⟨hheld, hwhy.imp_right fun h => h.imp_right fun h => h.mono (by omega) hbound.1⟩

end Vec

end Bbq.Crt
