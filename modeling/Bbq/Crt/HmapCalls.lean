import Bbq.Crt.Hmap

/-!
# The open-addressed map as a finite map

* `hmap_grow` makes a table of twice the size with the same entries, or changes nothing.
* `HmapAnswers` is what a finite map answers to a call. A `put` may be refused: the map stays.
* **`hmap_calls`**: under any seed, first capacity and pattern of refusals every probe ends, the replies are a map's,
  and the count is that of its keys.
-/

namespace Bbq.Crt

open Bbq.Lib

variable {V : Type}

namespace HMap

variable {m : HMap V}

/-! ## Growth -/

/-- The places of an old table that are left to re-place. -/
structure Fresh (m : HMap V) (old : List (Slot V)) : Prop where
  room : inUse m.table + old.countP Slot.used < m.cap
  absent : ∀ s ∈ old, s.used = true → ∀ v, some (s.key, v) ∉ m.table
  distinct : old.Pairwise fun s t => s.used = true → t.used = true → s.key ≠ t.key

/-- **The loop of `hmap_grow`** places every entry of the old table. -/
theorem foldlM_place (old : List (Slot V)) {k : Nat} (hsize : m.cap = 2 ^ k) (hlength : m.slots.length = m.cap)
    (hprobed : Probed (home m.seed) m.table) (hfresh : Fresh m old) :
    ∃ m', Settles (fun n => old.foldlM (place n) m) m' ∧ m' = { m with slots := m'.slots } ∧
      m'.slots.length = m.cap ∧ Probed (home m.seed) m'.table ∧
      inUse m'.table = inUse m.table + old.countP Slot.used ∧
      ∀ key v, some (key, v) ∈ m'.table ↔ some (key, v) ∈ m.table ∨ ∃ s ∈ old, s.entry = some (key, v) := by
  induction old generalizing m with
  | nil => exact ⟨m, .const m, rfl, hlength, hprobed, rfl, fun key v => by simp⟩
  | cons s rest ih =>
    obtain ⟨hroom, habsent, hdistinct⟩ := hfresh
    obtain ⟨hother, hrest⟩ := List.pairwise_cons.mp hdistinct
    rw [List.countP_cons] at hroom
    cases hused : s.used with
    | false =>
      rw [hused] at hroom
      simp only [Bool.false_eq_true, if_false, Nat.add_zero] at hroom
      obtain ⟨m', hset, hsame, hlength', hprobed', hcount, hmem⟩ :=
        ih hsize hlength hprobed ⟨hroom, fun t ht => habsent t (List.mem_cons_of_mem s ht), hrest⟩
      refine ⟨m', ?_, hsame, hlength', hprobed', ?_, fun key v => ?_⟩
      · simp only [List.foldlM_cons, place, hused, Bool.false_eq_true, if_false]
        exact hset
      · rw [hcount, List.countP_cons, hused]
        rfl
      · rw [hmem, List.exists_mem_cons_iff, entry_of_free hused]
        simp only [reduceCtorEq, false_or]
    | true =>
      rw [hused] at hroom
      simp only [if_true] at hroom
      have hready : m.Ready := ⟨⟨k, hsize⟩, hlength, hprobed, by omega⟩
      obtain ⟨i, t, hset, hlocated⟩ := slot_spec hready s.key
      obtain ⟨m₁, hm₁⟩ : ∃ m₁ : HMap V, m₁ = { m with
        slots := m.slots.set i { used := true, key := s.key, val := s.val } } := ⟨_, rfl⟩
      have hslots : m₁.slots = m.slots.set i { used := true, key := s.key, val := s.val } := by rw [hm₁]
      have hcap : m₁.cap = m.cap := by rw [hm₁]
      have hseed : m₁.seed = m.seed := by rw [hm₁]
      obtain ⟨hlen₁, hprobed₁, hcount₁, hmem₁⟩ := hlocated.write s.val hslots
      -- the key is not there yet, so that its place is free
      have hfree : t.used = false := by
        by_contra hnot
        rw [Bool.not_eq_false] at hnot
        have hin := (hlocated.value t.val).mpr (by rw [entry_of_used hnot, hlocated.same hnot])
        exact habsent s List.mem_cons_self hused _ hin
      rw [hfree] at hcount₁
      simp only [Bool.false_eq_true, if_false] at hcount₁
      rw [← hseed] at hprobed₁
      have hfresh₁ : Fresh m₁ rest := by
        refine ⟨by omega, fun r hr hrused v hin => ?_, hrest⟩
        rcases (hmem₁ _ _).mp hin with ⟨hkey, -⟩ | ⟨-, hin⟩
        · exact hother r hr hused hrused hkey.symm
        · exact habsent r (List.mem_cons_of_mem s hr) hrused v hin
      obtain ⟨m', hset', hsame, hlength', hprobed', hcount, hmem⟩ :=
        ih (by rw [hcap, hsize]) (by rw [hlen₁, hlength, hcap]) hprobed₁ hfresh₁
      refine ⟨m', ?_, ?_, by rw [hlength', hcap], by rw [← hseed]; exact hprobed', ?_, fun key v => ?_⟩
      · simp only [List.foldlM_cons, place, hused, if_true]
        refine (hset.map fun i => _).bind ?_
        rw [← hm₁]
        exact hset'
      · rw [hsame, hm₁]
      · rw [hcount, hcount₁, List.countP_cons, hused]
        simp only [if_true]
        omega
      · rw [hmem, hmem₁, List.exists_mem_cons_iff, entry_of_used hused, Option.some.injEq, Prod.mk.injEq]
        constructor
        · rintro ((⟨rfl, rfl⟩ | ⟨-, hin⟩) | hin)
          · exact .inr (.inl ⟨rfl, rfl⟩)
          · exact .inl hin
          · exact .inr (.inr hin)
        · rintro (hin | ⟨rfl, rfl⟩ | hin)
          · refine .inl (.inr ⟨?_, hin⟩)
            rintro rfl
            exact habsent s List.mem_cons_self hused _ hin
          · exact .inl (.inl ⟨rfl, rfl⟩)
          · exact .inr hin

/-- **The invariant.** -/
structure Sound (m : HMap V) : Prop where
  size : m.cap = 0 ∨ ∃ k, m.cap = 2 ^ k
  length : m.slots.length = m.cap
  probed : Probed (home m.seed) m.table
  counted : m.len = inUse m.table
  load : m.cap = 0 ∨ 4 * m.len < 3 * m.cap

theorem inUse_table (m : HMap V) : inUse m.table = m.slots.countP Slot.used := by
  have hsome : Option.isSome ∘ Slot.entry = (Slot.used : Slot V → Bool) := by
    funext s
    cases hused : s.used with
    | false => rw [Function.comp_apply, entry_of_free hused, Option.isSome_none]
    | true => rw [Function.comp_apply, entry_of_used hused, Option.isSome_some]
  rw [inUse, table, List.countP_map, hsome]

theorem Sound.ready (hm : m.Sound) (hcap : m.cap ≠ 0) : m.Ready := by
  refine ⟨hm.size.resolve_left hcap, hm.length, hm.probed, ?_⟩
  have hload := hm.load.resolve_left hcap
  rw [← hm.counted]
  omega

/-- A new table. -/
theorem fresh_table (m : HMap V) (cap : Nat) :
    let grown : HMap V := { m with slots := List.replicate cap .zero, cap }
    grown.table = List.replicate cap none ∧ Probed (home m.seed) grown.table ∧ inUse grown.table = 0 := by
  intro grown
  have htable : grown.table = List.replicate cap none := List.map_replicate
  refine ⟨htable, fun i k w hi => ?_, ?_⟩
  · rw [htable] at hi
    exact absurd (List.eq_of_mem_replicate (List.mem_of_getElem? hi)) nofun
  · rw [htable, inUse, List.countP_replicate]
    rfl

/-- **`hmap_alloc`** makes an empty table, or leaves the map and was refused. -/
theorem alloc_spec (m : HMap V) (a : Alloc) {cap : Nat} (hcap : cap ≠ 0) :
    a.Follows (m.alloc a cap).2.2 ∧
      match (m.alloc a cap).1 with
      | true => (m.alloc a cap).2.1 = { m with slots := List.replicate cap .zero, cap }
      | false => (m.alloc a cap).2.1 = m ∧ (Refused a (m.alloc a cap).2.2 ∨ 2 ^ 61 ≤ cap) := by
  unfold alloc
  split
  · next hbytes =>
    refine ⟨⟨rfl, le_refl _⟩, rfl, .inr ?_⟩
    unfold memArrayBytes sizeMax at hbytes
    grind
  · obtain ⟨hfollows, hrefused⟩ := three_spec a
    generalize a.three = r at hfollows hrefused
    obtain ⟨ok, b⟩ := r
    cases ok with
    | true => exact ⟨hfollows, rfl⟩
    | false => exact ⟨hfollows, rfl, .inl (hrefused rfl)⟩

/-- The entries have one key each. -/
theorem distinct_keys (hp : Probed (home m.seed) m.table) :
    m.slots.Pairwise fun s t => s.used = true → t.used = true → s.key ≠ t.key := by
  rw [List.pairwise_iff_getElem]
  intro i j hi hj hlt hsi hsj hsame
  have hin := table_get (List.getElem?_eq_getElem hi)
  have hjn := table_get (List.getElem?_eq_getElem hj)
  rw [entry_of_used hsi] at hin
  rw [entry_of_used hsj, ← hsame] at hjn
  exact absurd (hp.inj hin hjn) (by omega)

/-- **`hmap_grow`**: there is room for one more then, or the map is as it was. -/
theorem grow_spec (hm : m.Sound) (a : Alloc) (hload : m.cap * 3 ≤ (m.len + 1) * 4) :
    ∃ out, Settles (fun n => m.grow a n) out ∧ a.Follows out.2.2 ∧
      match out.1 with
      | true => out.2.1.Sound ∧ out.2.1.Ready ∧ 4 * (out.2.1.len + 1) < 3 * out.2.1.cap ∧
          ∀ key v, some (key, v) ∈ out.2.1.table ↔ some (key, v) ∈ m.table
      | false => out.2.1 = m ∧ (Refused a out.2.2 ∨ 3 * 2 ^ 60 ≤ 4 * (m.len + 1)) := by
  by_cases hlarge : sizeMax / 2 < m.cap
  · refine ⟨(false, m, a), .of_forall fun n => if_pos hlarge, ⟨rfl, le_refl _⟩, rfl, .inr ?_⟩
    unfold sizeMax at hlarge
    omega
  · obtain ⟨cap, hcap⟩ : ∃ cap, cap = if m.cap = 0 then hmapDefaultCap else m.cap * 2 := ⟨_, rfl⟩
    have hpow : ∃ k, cap = 2 ^ k := by
      rcases hm.size with hzero | ⟨k, hk⟩
      · rw [if_pos hzero] at hcap
        exact ⟨4, hcap⟩
      · rw [if_neg (by rw [hk]; exact (Nat.two_pow_pos k).ne')] at hcap
        exact ⟨k + 1, by rw [hcap, hk, Nat.pow_succ]⟩
    have hmore : 4 * (m.len + 1) < 3 * cap := by
      have hnone : m.cap = 0 → m.len = 0 := by
        intro hzero
        have hempty : m.slots = [] := List.length_eq_zero_iff.mp (hm.length.trans hzero)
        rw [hm.counted, inUse_table, hempty]
        rfl
      unfold hmapDefaultCap at hcap
      rcases hm.load with hzero | hload'
      · rw [if_pos hzero] at hcap
        have := hnone hzero
        omega
      · rw [if_neg (by omega)] at hcap
        rcases Nat.lt_or_ge m.cap 2 with hone | htwo
        · omega
        · omega
    obtain ⟨k, hk⟩ := hpow
    have hnonzero : cap ≠ 0 := by omega
    obtain ⟨hfollows, hres⟩ := alloc_spec m a hnonzero
    obtain ⟨⟨ok, grown, a'⟩, halloc⟩ : ∃ r, m.alloc a cap = r := ⟨_, rfl⟩
    rw [halloc] at hfollows hres
    cases ok with
    | false =>
      have hgrow : ∀ n, m.grow a n = some (false, grown, a') := fun n => by
        unfold grow
        rw [if_neg hlarge, ← hcap, halloc]
      simp only [hgrow]
      refine ⟨_, .const _, hfollows, hres.1, ?_⟩
      rcases hres.2 with hrefused | hsize
      · exact .inl hrefused
      · refine .inr ?_
        unfold hmapDefaultCap at hcap
        split at hcap
        · omega
        · omega
    | true =>
      have hgrow : ∀ n, m.grow a n = (m.slots.foldlM (place n) grown).map fun m => (true, m, a') := fun n => by
        unfold grow
        rw [if_neg hlarge, ← hcap, halloc]
      simp only [hgrow]
      obtain rfl : grown = _ := hres
      obtain ⟨htable, hprobed, hempty⟩ := fresh_table m cap
      have hroom : Fresh { m with slots := List.replicate cap .zero, cap } m.slots := by
        refine ⟨?_, fun s _ _ v hin => ?_, distinct_keys hm.probed⟩
        · rw [hempty, ← inUse_table, ← hm.counted]
          dsimp only
          omega
        · rw [htable] at hin
          cases List.eq_of_mem_replicate hin
      obtain ⟨m', hset, hsame, hlength, hprobed', hcount, hmem⟩ :=
        foldlM_place m.slots hk (List.length_replicate) hprobed hroom
      rw [hempty, Nat.zero_add, ← inUse_table, ← hm.counted] at hcount
      have hcap' : m'.cap = cap := by rw [hsame]
      have hlen' : m'.len = m.len := by rw [hsame]
      have hseed' : m'.seed = m.seed := by rw [hsame]
      have hsound : m'.Sound := by
        refine ⟨.inr ⟨k, hcap'.trans hk⟩, hlength.trans hcap'.symm, ?_, by rw [hlen', hcount], .inr (by omega)⟩
        rw [hseed']
        exact hprobed'
      refine ⟨_, hset.map _, hfollows, hsound, hsound.ready (by omega), by dsimp only; omega, fun key v => ?_⟩
      dsimp only
      rw [hmem, htable, table, List.mem_map]
      exact ⟨fun h => h.resolve_left fun hin => Option.some_ne_none _ (List.eq_of_mem_replicate hin), .inr⟩

/-! ## Calls -/

/-- What the map has for a key. -/
def contents (m : HMap V) (key : UInt64) : Option (Option V) :=
  (m.slots.find? fun s => s.used && s.key == key).map Slot.val

theorem contents_iff (hp : Probed (home m.seed) m.table) {key : UInt64} {v : Option V} :
    m.contents key = some v ↔ some (key, v) ∈ m.table := by
  have hfound : ∀ s, (m.slots.find? fun s => s.used && s.key == key) = some s → some (key, s.val) ∈ m.table := by
    intro s hs
    have hkey := List.find?_some hs
    rw [Bool.and_eq_true, beq_iff_eq] at hkey
    refine List.mem_map.mpr ⟨s, List.mem_of_find?_eq_some hs, ?_⟩
    rw [entry_of_used hkey.1, hkey.2]
  rw [contents, Option.map_eq_some_iff]
  constructor
  · rintro ⟨s, hs, rfl⟩
    exact hfound s hs
  · intro hin
    obtain ⟨s, hs, hentry⟩ := List.mem_map.mp hin
    obtain ⟨hused, hkey, hval⟩ := entry_used hentry
    cases hfind : m.slots.find? fun s => s.used && s.key == key with
    | none =>
      have hnot := List.find?_eq_none.mp hfind s hs
      rw [hused, hkey, beq_self_eq_true] at hnot
      exact absurd rfl hnot
    | some t =>
      exact ⟨t, rfl, hp.unique (hfound t hfind) hin⟩

theorem contents_empty (hcap : m.cap = 0) (hm : m.Sound) (key : UInt64) : m.contents key = none := by
  rw [contents, List.length_eq_zero_iff.mp (hm.length.trans hcap)]
  rfl

theorem contents_ext {f : UInt64 → Option (Option V)} (hp : Probed (home m.seed) m.table)
    (h : ∀ key v, some (key, v) ∈ m.table ↔ f key = some v) : m.contents = f := by
  funext key
  refine Option.ext fun v => ?_
  rw [contents_iff hp, h]

/-- The keys are counted. -/
theorem Sound.keys (hm : m.Sound) :
    { key | (m.contents key).isSome }.Finite ∧ m.len = { key | (m.contents key).isSome }.ncard := by
  have hkeys : { key | (m.contents key).isSome } = keysOf m.table := by
    ext key
    simp only [keysOf, Set.mem_ofPred_eq, Option.isSome_iff_exists, contents_iff hm.probed]
  rw [hkeys, hm.counted]
  exact hm.probed.ncard

/-- What stands in the place for a key. -/
theorem Located.contents {key : UInt64} {i : Nat} {s : Slot V} (hl : m.Located key i s)
    (hp : Probed (home m.seed) m.table) : m.contents key = s.entry.map Prod.snd := by
  refine Option.ext fun v => ?_
  rw [contents_iff hp, hl.value, Option.map_eq_some_iff]
  constructor
  · intro h
    exact ⟨_, h, rfl⟩
  · rintro ⟨x, hx, rfl⟩
    obtain ⟨hused, hkey, -⟩ := entry_used hx
    rw [hx, ← hl.same hused, hkey]

/-- **`bbq_hmap_get`** finds what the map has. -/
theorem get_spec (hm : m.Sound) (key : UInt64) : Settles (m.get key) (m.contents key).join := by
  unfold get
  by_cases hcap : m.cap = 0
  · simp only [if_pos hcap, contents_empty hcap hm]
    exact .const _
  · obtain ⟨i, s, hset, hl⟩ := slot_spec (hm.ready hcap) key
    simp only [if_neg hcap]
    refine hset.bind ?_
    simp only [hl.slot, Option.map_some]
    rw [hl.contents hm.probed]
    cases hused : s.used with
    | true =>
      rw [entry_of_used hused]
      exact .const _
    | false =>
      rw [entry_of_free hused]
      exact .const _

/-- **`bbq_hmap_contains`**. -/
theorem contains_spec (hm : m.Sound) (key : UInt64) : Settles (m.contains key) (m.contents key).isSome := by
  unfold contains
  by_cases hcap : m.cap = 0
  · simp only [if_pos hcap, contents_empty hcap hm]
    exact .const _
  · obtain ⟨i, s, hset, hl⟩ := slot_spec (hm.ready hcap) key
    simp only [if_neg hcap]
    refine hset.bind ?_
    simp only [hl.slot, Option.map_some]
    rw [hl.contents hm.probed]
    cases hused : s.used with
    | true =>
      rw [entry_of_used hused]
      exact .const _
    | false =>
      rw [entry_of_free hused]
      exact .const _

/-- The key gets its value where there is room for one more. -/
theorem store_spec (hm : m.Sound) (hr : m.Ready) (hload : 4 * (m.len + 1) < 3 * m.cap) (key : UInt64) (val : Option V) :
    ∃ m', Settles (m.store key val) m' ∧ m'.Sound ∧ m'.contents = Function.update m.contents key (some val) := by
  obtain ⟨i, s, hset, hl⟩ := slot_spec hr key
  obtain ⟨m', hm'⟩ : ∃ m' : HMap V, m' = { m with
    slots := m.slots.set i { used := true, key, val }
    len := if s.used then m.len else m.len + 1 } := ⟨_, rfl⟩
  have hcap : m'.cap = m.cap := by rw [hm']
  have hseed : m'.seed = m.seed := by rw [hm']
  have hlen : m'.len = if s.used then m.len else m.len + 1 := by rw [hm']
  have hslots : m'.slots = m.slots.set i { used := true, key, val } := by rw [hm']
  obtain ⟨hlength, hprobed, hcount, hmem⟩ := hl.write val hslots
  rw [← hseed] at hprobed
  refine ⟨m', ?_, ⟨?_, ?_, hprobed, ?_, ?_⟩, ?_⟩
  · refine hset.bind ?_
    simp only [hl.slot, Option.map_some]
    have hkey : (if s.used then s.key else key) = key := by
      split
      · next hused => exact hl.same hused
      · rfl
    rw [hkey, ← hm']
    exact .const m'
  · rw [hcap]
    exact hm.size
  · rw [hlength, hcap, hm.length]
  · rw [hlen, hcount, hm.counted]
  · right
    rw [hlen, hcap]
    split
    · omega
    · omega
  · refine contents_ext hprobed fun k v => ?_
    rw [hmem, Function.update_apply]
    by_cases hk : k = key
    · rw [if_pos hk, Option.some.injEq]
      constructor
      · rintro (⟨-, rfl⟩ | ⟨hne, -⟩)
        · rfl
        · exact absurd hk hne
      · rintro rfl
        exact .inl ⟨hk, rfl⟩
    · rw [if_neg hk, contents_iff hm.probed]
      exact ⟨fun h => h.elim (fun h => absurd h.1 hk) And.right, fun h => .inr ⟨hk, h⟩⟩

/-- **`bbq_hmap_put`**: the key has the value then, or the growth was refused and the entries are as they were. -/
theorem put_spec (hm : m.Sound) (a : Alloc) (key : UInt64) (val : Option V) :
    ∃ out, Settles (m.put a key val) out ∧ a.Follows out.2.2 ∧ out.2.1.Sound ∧
      match out.1 with
      | true => out.2.1.contents = Function.update m.contents key (some val)
      | false => out.2.1 = { m with oom := true } ∧ (Refused a out.2.2 ∨ 3 * 2 ^ 60 ≤ 4 * (m.len + 1)) := by
  unfold put
  by_cases hload : m.cap * 3 ≤ (m.len + 1) * 4
  · obtain ⟨⟨ok, m₁, a'⟩, hgrow, hfollows, hres⟩ := grow_spec hm a hload
    simp only [if_pos hload]
    cases ok with
    | false =>
      obtain ⟨rfl, hrefused⟩ := hres
      exact ⟨_, hgrow.bind (.const _), hfollows, ⟨hm.size, hm.length, hm.probed, hm.counted, hm.load⟩, rfl, hrefused⟩
    | true =>
      obtain ⟨hsound, hready, hroom, hmem⟩ := hres
      obtain ⟨m', hstore, hsound', hcontents⟩ := store_spec hsound hready hroom key val
      refine ⟨_, hgrow.bind (hstore.map _), hfollows, hsound', ?_⟩
      have hsame : m₁.contents = m.contents :=
        contents_ext hsound.probed fun k v => (hmem k v).trans (contents_iff hm.probed).symm
      rw [← hsame]
      exact hcontents
  · simp only [if_neg hload, Option.bind_some]
    have hcap : m.cap ≠ 0 := by omega
    obtain ⟨m', hstore, hsound, hcontents⟩ := store_spec hm (hm.ready hcap) (by omega) key val
    exact ⟨_, hstore.map _, ⟨rfl, le_refl _⟩, hsound, hcontents⟩

theorem roundPow2From_spec {n : Nat} (hn : n ≤ sizeMax) (turns c : Nat) (hc : ∃ k, c = 2 ^ k ∧ k + turns = 64) :
    roundPow2From n turns c = 0 ∨ n ≤ roundPow2From n turns c ∧ ∃ k, roundPow2From n turns c = 2 ^ k := by
  induction turns generalizing c with
  | zero =>
    obtain ⟨k, rfl, rfl⟩ := hc
    refine .inr ⟨le_trans hn ?_, _, rfl⟩
    unfold sizeMax
    exact Nat.sub_le _ _
  | succ turns ih =>
    obtain ⟨k, rfl, hk⟩ := hc
    unfold roundPow2From
    split
    · split
      · exact .inl rfl
      · exact ih _ ⟨k + 1, (Nat.pow_succ ..).symm, by omega⟩
    · next hle => exact .inr ⟨Nat.le_of_not_lt hle, k, rfl⟩

/-- `round_pow2` finds a power of two from `n` on, or there is no size for it. -/
theorem roundPow2_spec {n : Nat} (hn : n ≤ sizeMax) :
    roundPow2 n = 0 ∨ n ≤ roundPow2 n ∧ ∃ k, roundPow2 n = 2 ^ k :=
  roundPow2From_spec hn 64 1 ⟨0, rfl, rfl⟩

/-- The map starts sound and empty, whether its table was refused or not. -/
theorem init_spec (initialCap : UInt64) (a : Alloc) (seed : UInt64) :
    (init initialCap a seed : Bool × HMap V × Alloc).2.1.Sound ∧
      (init initialCap a seed : Bool × HMap V × Alloc).2.1.contents = (fun _ => none) ∧
      a.Follows (init initialCap a seed : Bool × HMap V × Alloc).2.2 := by
  obtain ⟨m, hm⟩ : ∃ m : HMap V, m = { slots := [], cap := 0, len := 0, oom := false, seed } := ⟨_, rfl⟩
  have hnone : ∀ oom, ({ m with oom } : HMap V).Sound ∧ ({ m with oom } : HMap V).contents = fun _ => none := by
    intro oom
    rw [hm]
    exact ⟨⟨.inl rfl, rfl, nofun, rfl, .inl rfl⟩, rfl⟩
  unfold init
  dsimp only
  rw [← hm]
  have hround := roundPow2_spec (n := if initialCap = 0 then hmapDefaultCap else initialCap.toNat) (by
    split
    · decide
    · exact Nat.le_sub_one_of_lt initialCap.toNat_lt)
  generalize roundPow2 (if initialCap = 0 then hmapDefaultCap else initialCap.toNat) = cap at hround
  by_cases hcap : cap = 0
  · have hrefused := hnone true
    rw [hm] at hrefused
    rw [if_pos hcap]
    exact ⟨hrefused.1, hrefused.2, rfl, le_refl _⟩
  · rw [if_neg hcap]
    obtain ⟨-, hpow⟩ := hround.resolve_left hcap
    obtain ⟨hfollows, hres⟩ := alloc_spec m a hcap
    generalize m.alloc a cap = r at hfollows hres
    obtain ⟨ok, grown, a'⟩ := r
    cases ok with
    | false =>
      obtain rfl : grown = m := hres.1
      exact ⟨(hnone true).1, (hnone true).2, hfollows⟩
    | true =>
      obtain rfl : grown = _ := hres
      obtain ⟨htable, hprobed, hempty⟩ := fresh_table m cap
      refine ⟨⟨.inr hpow, List.length_replicate, hprobed, ?_, .inr ?_⟩, contents_ext hprobed fun key v => ?_, hfollows⟩
      · dsimp only at hempty ⊢
        rw [hempty, hm]
      · rw [hm]
        dsimp only
        omega
      · dsimp only at htable ⊢
        rw [htable]
        exact iff_of_false (fun hin => absurd (List.eq_of_mem_replicate hin) nofun) nofun

end HMap

/-- The calls of a user. -/
inductive HmapCall (V : Type)
  | put (key : UInt64) (val : Option V)
  | get (key : UInt64)
  | contains (key : UInt64)
  | len

/-- What they return. -/
inductive HmapReply (V : Type)
  | done (ok : Bool)
  | value (v : Option V)
  | found (b : Bool)
  | size (n : Nat)

namespace HMap

def call (m : HMap V) (a : Alloc) (n : Nat) : HmapCall V → Option (HmapReply V × HMap V × Alloc)
  | .put key val => (m.put a key val n).map fun (ok, out) => (.done ok, out)
  | .get key => (m.get key n).map fun v => (.value v, m, a)
  | .contains key => (m.contains key n).map fun b => (.found b, m, a)
  | .len => some (.size m.len, m, a)

/-- The replies to a list of calls. -/
def calls (m : HMap V) (a : Alloc) (n : Nat) : List (HmapCall V) → Option (List (HmapReply V) × HMap V × Alloc)
  | [] => some ([], m, a)
  | c :: cs => (m.call a n c).bind fun (r, m, a) => (m.calls a n cs).map fun (rs, out) => (r :: rs, out)

end HMap

/-- The number of keys. -/
noncomputable def size (f : UInt64 → Option (Option V)) : Nat := { key | (f key).isSome }.ncard

/-- What a map answers to a call, and the map it is then; `refused` is whether memory was. -/
def HmapAnswers (refused : Prop) (f : UInt64 → Option (Option V)) :
    HmapCall V → HmapReply V → (UInt64 → Option (Option V)) → Prop
  | .put key val, .done true, f' => f' = Function.update f key (some val)
  | .put _ _, .done false, f' => f' = f ∧ (refused ∨ 3 * 2 ^ 60 ≤ 4 * (size f + 1))
  | .get key, .value v, f' => v = (f key).join ∧ f' = f
  | .contains key, .found b, f' => b = (f key).isSome ∧ f' = f
  | .len, .size n, f' => n = size f ∧ f' = f
  | _, _, _ => False

/-- **Replies that are a map's**, one after the other, while the allocator goes from request to request. -/
inductive HmapFollow (grant : Nat → Bool) : Nat → (UInt64 → Option (Option V)) → List (HmapCall V) →
    List (HmapReply V) → Nat → (UInt64 → Option (Option V)) → Prop
  | nil {n : Nat} {f : UInt64 → Option (Option V)} : HmapFollow grant n f [] [] n f
  | cons {n n' n'' : Nat} {f f' f'' : UInt64 → Option (Option V)} {c : HmapCall V} {cs : List (HmapCall V)}
      {r : HmapReply V} {rs : List (HmapReply V)}
      (head : HmapAnswers (∃ i, n ≤ i ∧ i < n' ∧ grant i = false) f c r f')
      (rest : HmapFollow grant n' f' cs rs n'' f'') : HmapFollow grant n f (c :: cs) (r :: rs) n'' f''

namespace HMap

variable {m : HMap V}

/-- **One call** answers as the map does. -/
theorem call_answers (hm : m.Sound) (a : Alloc) (c : HmapCall V) :
    ∃ out, Settles (fun n => m.call a n c) out ∧ a.Follows out.2.2 ∧ out.2.1.Sound ∧
      HmapAnswers (Refused a out.2.2) m.contents c out.1 out.2.1.contents := by
  cases c with
  | put key val =>
    obtain ⟨⟨ok, m', a'⟩, hset, hfollows, hsound, hres⟩ := put_spec hm a key val
    refine ⟨_, hset.map _, hfollows, hsound, ?_⟩
    cases ok with
    | true => exact hres
    | false =>
      obtain ⟨rfl, hrefused⟩ := hres
      rw [hm.keys.2] at hrefused
      exact ⟨rfl, hrefused⟩
  | get key => exact ⟨_, (get_spec hm key).map _, ⟨rfl, le_refl _⟩, hm, rfl, rfl⟩
  | contains key => exact ⟨_, (contains_spec hm key).map _, ⟨rfl, le_refl _⟩, hm, rfl, rfl⟩
  | len => exact ⟨_, .const _, ⟨rfl, le_refl _⟩, hm, hm.keys.2, rfl⟩

theorem calls_sound (cs : List (HmapCall V)) (hm : m.Sound) (a : Alloc) :
    ∃ out, Settles (fun n => m.calls a n cs) out ∧ out.2.1.Sound ∧
      HmapFollow a.grant a.asked m.contents cs out.1 out.2.2.asked out.2.1.contents := by
  induction cs generalizing m a with
  | nil => exact ⟨_, .const _, hm, .nil⟩
  | cons c cs ih =>
    obtain ⟨⟨r, m', a'⟩, hset, hfollows, hm', hanswer⟩ := call_answers hm a c
    obtain ⟨⟨rs, out⟩, hrest, hsound, hreplies⟩ := ih hm' a'
    rw [hfollows.1] at hreplies
    exact ⟨_, hset.bind (hrest.map _), hsound, .cons hanswer hreplies⟩

/-- A place is free. -/
theorem Ready.free (hr : m.Ready) : ∃ s ∈ m.slots, s.used = false := by
  have hroom := hr.room
  rw [inUse_table, ← hr.length] at hroom
  exact List.countP_lt_length_iff.mp hroom

/-- **The map is a finite map**, under any seed, any first capacity and any pattern of refusals. -/
theorem hmap_calls (seed initialCap : UInt64) (grant : Nat → Bool) (cs : List (HmapCall V)) :
    let start : Bool × HMap V × Alloc := init initialCap ⟨grant, 0⟩ seed
    ∃ (replies : List (HmapReply V)) (m : HMap V) (a : Alloc) (f : UInt64 → Option (Option V)),
      Settles (fun n => start.2.1.calls start.2.2 n cs) (replies, m, a) ∧
      HmapFollow grant start.2.2.asked (fun _ => none) cs replies a.asked f ∧
      { key | (f key).isSome }.Finite ∧ m.len = size f ∧
      (∀ key, Settles (m.get key) (f key).join) ∧
      (m.cap ≠ 0 → (∃ s ∈ m.slots, s.used = false) ∧ ∀ key, ∃ i, Settles (m.slot key) i) ∧
      ∀ key val, ∃ out, Settles (m.put a key val) out ∧ (out.1 = false → out.2.1 = { m with oom := true }) := by
  intro start
  obtain ⟨hstart, hempty, hfollows⟩ := init_spec (V := V) initialCap ⟨grant, 0⟩ seed
  obtain ⟨⟨replies, m, a⟩, hset, hm, hreplies⟩ := calls_sound cs hstart start.2.2
  rw [hempty, hfollows.1] at hreplies
  refine ⟨replies, m, a, m.contents, hset, hreplies, hm.keys.1, hm.keys.2, get_spec hm, fun hcap => ?_, fun key val => ?_⟩
  · refine ⟨(hm.ready hcap).free, fun key => ?_⟩
    obtain ⟨i, s, hslot, -⟩ := slot_spec (hm.ready hcap) key
    exact ⟨i, hslot⟩
  · obtain ⟨out, hput, -, -, hres⟩ := put_spec hm a key val
    refine ⟨out, hput, fun hno => ?_⟩
    rw [hno] at hres
    exact hres.1

end HMap

end Bbq.Crt
