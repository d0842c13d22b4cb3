import Bbq.Crt.Dict
import Bbq.Lib.Probing
import Bbq.Lib.Settle

/-!
# The open-addressed map

`crt/bbq_hmap.c`: keys of 64 bits in one array with linear probing. The capacity is a power of two, and the table
grows at 3/4 load.

* The three arrays are one list of slots, as they are allocated together and never apart; their three requests are
  made whatever the first ones answer.
* A read past the list is `none`, and a probe goes on as long as it has fuel.
* **`slot_spec`**: when a slot is free, the probe for a key ends where the key is, or where it may be written.
-/

namespace Bbq.Crt

open Bbq.Lib

variable {V : Type}

/-- `BBQ_HMAP_DEFAULT_CAP`. -/
def hmapDefaultCap : Nat := 16

/-- `hmap_mix`. -/
def hmapMix (seed x : UInt64) : UInt64 :=
  let x := x ^^^ seed
  let x := x ^^^ (x >>> 33)
  let x := x * 0xff51afd7ed558ccd
  let x := x ^^^ (x >>> 33)
  let x := x * 0xc4ceb9fe1a85ec53
  x ^^^ (x >>> 33)

/-- The loop of `round_pow2`. -/
def roundPow2From (n : Nat) : Nat → Nat → Nat
  | 0, c => c
  | turns + 1, c => if c < n then (if sizeMax / 2 < c then 0 else roundPow2From n turns (c * 2)) else c

/-- `round_pow2`: after 64 turns there is no size left. -/
def roundPow2 (n : Nat) : Nat := roundPow2From n 64 1

/-- A place of the three arrays. -/
structure Slot (V : Type) where
  used : Bool
  key : UInt64
  val : Option V

/-- What `bbq_mem_zalloc` makes of a place. -/
def Slot.zero : Slot V := { used := false, key := 0, val := none }

/-- `bbq_hmap`. -/
structure HMap (V : Type) where
  slots : List (Slot V)
  cap : Nat
  len : Nat
  oom : Bool
  seed : UInt64

namespace HMap

variable (m : HMap V)

/-- `hmap_alloc`. -/
def alloc (a : Alloc) (cap : Nat) : Bool × HMap V × Alloc :=
  if cap = 0 ∨ memArrayBytes cap 8 = 0 ∨ memArrayBytes cap 8 = 0 ∨ memArrayBytes cap 1 = 0 then (false, m, a)
  else
    match a.three with
    | (true, a) => (true, { m with slots := List.replicate cap .zero, cap }, a)
    | (false, a) => (false, m, a)

/-- `bbq_hmap_init_seeded`. -/
def init (initialCap : UInt64) (a : Alloc) (seed : UInt64) : Bool × HMap V × Alloc :=
  let cap := roundPow2 (if initialCap = 0 then hmapDefaultCap else initialCap.toNat)
  let m : HMap V := { slots := [], cap := 0, len := 0, oom := false, seed }
  if cap = 0 then (false, { m with oom := true }, a)
  else
    match m.alloc a cap with
    | (true, m, a) => (true, m, a)
    | (false, m, a) => (false, { m with oom := true }, a)

/-- A turn of the loop of `hmap_slot`. -/
def slotTurn (key : UInt64) (i : Nat) : Option (Nat ⊕ Nat) :=
  m.slots[i]?.map fun s => if s.used && s.key != key then .inl ((i + 1) &&& (m.cap - 1)) else .inr i

/-- `hmap_slot`. -/
def slot (key : UInt64) (n : Nat) : Option Nat :=
  loop (m.slotTurn key) n ((hmapMix m.seed key).toNat &&& (m.cap - 1))

/-- What `hmap_grow` does for a place of the old table. -/
def place (n : Nat) (m : HMap V) (old : Slot V) : Option (HMap V) :=
  if old.used then
    (m.slot old.key n).map fun s => { m with slots := m.slots.set s { used := true, key := old.key, val := old.val } }
  else some m

/-- `hmap_grow`. -/
def grow (a : Alloc) (n : Nat) : Option (Bool × HMap V × Alloc) :=
  if sizeMax / 2 < m.cap then some (false, m, a)
  else
    match m.alloc a (if m.cap = 0 then hmapDefaultCap else m.cap * 2) with
    | (false, m, a) => some (false, m, a)
    | (true, grown, a) => (m.slots.foldlM (place n) grown).map fun m => (true, m, a)

/-- `bbq_hmap_put` behind the growth. -/
def store (key : UInt64) (val : Option V) (n : Nat) : Option (HMap V) :=
  (m.slot key n).bind fun i => m.slots[i]?.map fun s =>
    { m with
      slots := m.slots.set i { used := true, key := if s.used then s.key else key, val }
      len := if s.used then m.len else m.len + 1 }

/-- `bbq_hmap_put`. -/
def put (a : Alloc) (key : UInt64) (val : Option V) (n : Nat) : Option (Bool × HMap V × Alloc) :=
  (if m.cap * 3 ≤ (m.len + 1) * 4 then m.grow a n else some (true, m, a)).bind fun
    | (false, m, a) => some (false, { m with oom := true }, a)
    | (true, m, a) => (m.store key val n).map fun m => (true, m, a)

/-- `bbq_hmap_get`. -/
def get (key : UInt64) (n : Nat) : Option (Option V) :=
  if m.cap = 0 then some none
  else (m.slot key n).bind fun i => m.slots[i]?.map fun s => if s.used then s.val else none

/-- `bbq_hmap_contains`. -/
def contains (key : UInt64) (n : Nat) : Option Bool :=
  if m.cap = 0 then some false else (m.slot key n).bind fun i => m.slots[i]?.map Slot.used

end HMap

/-! ## The table -/

/-- What a place holds. -/
def Slot.entry (s : Slot V) : Option (UInt64 × Option V) := if s.used then some (s.key, s.val) else none

namespace HMap

/-- The map's table. -/
def table (m : HMap V) : Table UInt64 (Option V) := m.slots.map Slot.entry

/-- Where the probe for a key starts, but for the mask. -/
def home (seed key : UInt64) : Nat := (hmapMix seed key).toNat

/-- A table that can be probed. -/
structure Ready (m : HMap V) : Prop where
  size : ∃ k, m.cap = 2 ^ k
  length : m.slots.length = m.cap
  probed : Probed (home m.seed) m.table
  room : inUse m.table < m.cap

/-- The place `i` is the one for `key`: it holds the key, or is free and the key is nowhere. -/
structure Located (m : HMap V) (key : UInt64) (i : Nat) (s : Slot V) : Prop where
  slot : m.slots[i]? = some s
  same : s.used = true → s.key = key
  value : ∀ v, some (key, v) ∈ m.table ↔ s.entry = some (key, v)
  probed : ∀ v, Probed (home m.seed) (m.table.set i (some (key, v)))
  set : ∀ v k' v', some (k', v') ∈ m.table.set i (some (key, v)) ↔
    k' = key ∧ v' = v ∨ k' ≠ key ∧ some (k', v') ∈ m.table

variable {m : HMap V} {key : UInt64} {i : Nat} {s : Slot V}

theorem table_get (h : m.slots[i]? = some s) : m.table[i]? = some s.entry := by
  rw [table, List.getElem?_map, h, Option.map_some]

theorem slot_of_table {x : Option (UInt64 × Option V)} (h : m.table[i]? = some x) :
    ∃ s, m.slots[i]? = some s ∧ s.entry = x := by
  rw [table, List.getElem?_map, Option.map_eq_some_iff] at h
  exact h

theorem entry_used {x : UInt64 × Option V} (h : s.entry = some x) : s.used = true ∧ s.key = x.1 ∧ s.val = x.2 := by
  unfold Slot.entry at h
  split at h
  · next hused =>
    obtain rfl := Option.some.inj h
    exact ⟨hused, rfl, rfl⟩
  · exact absurd h nofun

theorem entry_of_used (h : s.used = true) : s.entry = some (s.key, s.val) := if_pos h

theorem entry_of_free (h : s.used = false) : s.entry = none := by
  rw [Slot.entry, h]
  rfl

theorem table_length (m : HMap V) : m.table.length = m.slots.length := List.length_map _

theorem mask_eq {k x : Nat} (hsize : m.cap = 2 ^ k) : x &&& (m.cap - 1) = x % m.cap := by
  rw [hsize, Nat.and_two_pow_sub_one_eq_mod]

/-- The probe goes on as far as the keys are others. -/
theorem slot_settles {k d : Nat} (hsize : m.cap = 2 ^ k) (hlength : m.slots.length = m.cap)
    (hs : Stops m.table (home m.seed key) key d) :
    Settles (fun n => m.slot key n) ((home m.seed key + d) % m.cap) := by
  have htable : m.table.length = m.cap := by rw [table_length, hlength]
  have hrun : ∀ left e n, e + left = d → left < n →
      loop (m.slotTurn key) n ((home m.seed key + e) % m.cap) = some ((home m.seed key + d) % m.cap) := by
    intro left
    induction left with
    | zero =>
      intro e n hd hn
      rw [Nat.add_zero] at hd
      subst hd
      obtain ⟨x, hx, hkey⟩ := hs.slot
      rw [htable] at hx
      obtain ⟨s, hslot, rfl⟩ := slot_of_table hx
      have hstop : (s.used && s.key != key) = false := by
        cases hused : s.used with
        | false => rfl
        | true => simp [hkey _ _ (entry_of_used hused)]
      obtain ⟨n, rfl⟩ : ∃ j, n = j + 1 := ⟨n - 1, by omega⟩
      simp only [loop, slotTurn, hslot, Option.map_some, hstop, Bool.false_eq_true, if_false, Option.bind_some]
    | succ left ih =>
      intro e n hd hn
      obtain ⟨k', w, hx, hne⟩ := hs.passes e (by omega)
      rw [htable] at hx
      obtain ⟨s, hslot, hentry⟩ := slot_of_table hx
      obtain ⟨hused, hkey, -⟩ := entry_used hentry
      have hgo : (s.used && s.key != key) = true := by
        rw [hused, hkey, Bool.true_and, bne_iff_ne]
        exact hne
      obtain ⟨n, rfl⟩ : ∃ j, n = j + 1 := ⟨n - 1, by omega⟩
      simp only [loop, slotTurn, hslot, Option.map_some, hgo, if_true, Option.bind_some]
      rw [mask_eq hsize, Nat.mod_add_mod, Nat.add_assoc]
      exact ih (e + 1) n (by omega) (by omega)
  refine ⟨d + 1, fun n hn => ?_⟩
  have hstart := hrun d 0 n (Nat.zero_add d) hn
  rw [Nat.add_zero, home, ← mask_eq hsize] at hstart
  exact hstart

/-- **`hmap_slot`** ends at the place for the key. -/
theorem slot_spec (hm : m.Ready) (key : UInt64) :
    ∃ i s, Settles (fun n => m.slot key n) i ∧ m.Located key i s := by
  obtain ⟨k, hsize⟩ := hm.size
  have htable : m.table.length = m.cap := by rw [table_length, hm.length]
  have hfree := exists_free (T := m.table) (by rw [htable]; exact hm.room)
  obtain ⟨d, -, hs⟩ := exists_stop hfree (home m.seed key) key
  obtain ⟨x, hx, hkey⟩ := hs.slot
  obtain ⟨s, hslot, rfl⟩ := slot_of_table hx
  have hsettles := slot_settles hsize hm.length hs
  rw [← htable] at hsettles
  refine ⟨_, s, hsettles, hslot, fun hused => hkey _ _ (entry_of_used hused), fun v => ?_,
    hs.probed_set hm.probed, fun v k' v' => hs.mem_set hm.probed⟩
  cases hused : s.used with
  | false =>
    rw [entry_of_free hused] at hx ⊢
    exact iff_of_false (hs.absent hm.probed hx v) nofun
  | true =>
    have hsame := hkey _ _ (entry_of_used hused)
    rw [entry_of_used hused, hsame] at hx ⊢
    rw [hs.found hm.probed hx, Option.some.injEq, Prod.mk.injEq, eq_comm]
    exact ⟨fun h => ⟨rfl, h⟩, fun h => h.2⟩

/-- **The place for a key is written**: the map has the value for the key then. -/
theorem Located.write (hl : m.Located key i s) (v : Option V) {m' : HMap V}
    (hslots : m'.slots = m.slots.set i { used := true, key, val := v }) :
    m'.slots.length = m.slots.length ∧ Probed (home m.seed) m'.table ∧
      inUse m'.table = (if s.used then inUse m.table else inUse m.table + 1) ∧
      ∀ k' v', some (k', v') ∈ m'.table ↔ k' = key ∧ v' = v ∨ k' ≠ key ∧ some (k', v') ∈ m.table := by
  have htable : m'.table = m.table.set i (some (key, v)) := by
    rw [table, hslots]
    exact List.map_set
  refine ⟨by rw [hslots, List.length_set], by rw [htable]; exact hl.probed v, ?_, ?_⟩
  · rw [htable, inUse_set (table_get hl.slot)]
    cases hused : s.used with
    | false =>
      rw [entry_of_free hused]
      rfl
    | true =>
      rw [entry_of_used hused]
      rfl
  · intro k' v'
    rw [htable]
    exact hl.set v k' v'

end HMap

end Bbq.Crt
