import Bbq.Crt.Dict
import Mathlib.Data.List.Nodup

/-!
# The arena

`crt/bbq_arena.c`: pages that are handed out from the front, in three tables that grow together.

* A block is known by the request that granted it, and a pointer is a block with an offset. `a->pages` and its two
  sister tables are lists of the records in use; a write past their capacity and a read past their end are `none`.
* Sizes are numbers below `2 ^ 64`: additions and subtractions wrap as those of a `size_t` do.
* **`alloc_spec`**: a request is answered with bytes that no live region has, or nothing but the flag changes.
* **`arena_regions`**: so it is in every run, under any pattern of refusals.
-/

namespace Bbq.Crt

/-- `BBQ_ARENA_DEFAULT_PAGE`. -/
def arenaDefaultPage : Nat := 4096

/-- `BBQ_ARENA_ALIGN`. -/
def arenaAlign : Nat := 8

/-- `BBQ_ARENA_INIT_PAGES`. -/
def arenaInitPages : Nat := 4

/-- `align_up`, for an `a` that is a power of two. -/
def alignUp (v a : Nat) : Option Nat := if sizeMax - (a - 1) < v then none else some ((v + a - 1) / a * a)

/-- A `size_t`. -/
def wrap (n : Nat) : Nat := n % 2 ^ 64

/-- A place in a block. -/
structure Ptr where
  block : Nat
  offset : Nat

/-- `bbq_arena`. -/
structure Arena where
  pages : List Nat
  pageSizes : List Nat
  pageUsed : List Nat
  pageCount : Nat
  pageCap : Nat
  curPage : Nat
  pageSize : Nat
  oom : Bool

namespace Arena

/-- `bbq_arena_init_a`. -/
def init (pageSize : Nat) : Arena where
  pages := []
  pageSizes := []
  pageUsed := []
  pageCount := 0
  pageCap := 0
  curPage := 0
  pageSize := if pageSize = 0 then arenaDefaultPage else (alignUp pageSize arenaAlign).getD arenaDefaultPage
  oom := false

variable (s : Arena)

/-- `grow_page_table`. -/
def growPageTable (a : Alloc) : Bool × Arena × Alloc :=
  if s.pageCount < s.pageCap then (true, s, a)
  else
    let newcap := if s.pageCap = 0 then arenaInitPages else wrap (s.pageCap * 2)
    if newcap < s.pageCap ∨ memArrayBytes newcap 8 = 0 ∨ memArrayBytes newcap 8 = 0 then (false, s, a)
    else
      match a.three with
      | (true, a) => (true, { s with pageCap := newcap }, a)
      | (false, a) => (false, s, a)

/-- `need <= a->page_sizes[i] - a->page_used[i]`. -/
def fits (need i : Nat) : Option Bool :=
  s.pageSizes[i]?.bind fun size => s.pageUsed[i]?.map fun used => decide (need ≤ wrap (size + 2 ^ 64 - used))

/-- The page records with one more. -/
def addPage (size block : Nat) : Option Arena :=
  if s.pageCount < s.pageCap then
    some { s with
      pageSizes := s.pageSizes ++ [size], pageUsed := s.pageUsed ++ [0], pages := s.pages ++ [block],
      pageCount := s.pageCount + 1, curPage := s.pageCount }
  else none

/-- The page that is used, and the arena with it as the current one; `none` inside where there is no memory. -/
def choosePage (a : Alloc) (need : Nat) : Option (Bool × Arena × Alloc) :=
  (if s.curPage < s.pageCount then s.fits need s.curPage else some false).bind fun
    | true => some (true, s, a)
    | false =>
      ((List.range s.pageCount).findM? (s.fits need)).bind fun
        | some i => some (true, { s with curPage := i }, a)
        | none =>
          let allocSize := if s.pageSize < need then need else s.pageSize
          match s.growPageTable a with
          | (false, s, a) => some (false, s, a)
          | (true, s, a) =>
            match a.request with
            | (false, a) => some (false, s, a)
            | (true, b) => (s.addPage allocSize a.asked).map fun s => (true, s, b)

/-- `bbq_arena_alloc`. -/
def alloc (a : Alloc) (size : Nat) : Option (Option Ptr × Arena × Alloc) :=
  if size = 0 then some (none, s, a)
  else if s.oom then some (none, s, a)
  else
    match alignUp size arenaAlign with
    | none => some (none, { s with oom := true }, a)
    | some need =>
      (s.choosePage a need).bind fun
        | (false, s, a) => some (none, { s with oom := true }, a)
        | (true, s, a) =>
          s.pages[s.curPage]?.bind fun block => s.pageUsed[s.curPage]?.map fun used =>
            (some ⟨block, used⟩, { s with pageUsed := s.pageUsed.set s.curPage (wrap (used + need)) }, a)

/-- `bbq_arena_reset`. -/
def reset : Arena := { s with pageUsed := s.pageUsed.map fun _ => 0, curPage := 0, oom := false }

end Arena

/-! ## Regions -/

/-- The bytes that a request is given. -/
structure Region where
  start : Ptr
  length : Nat

/-- The byte is one of the region's. -/
def Region.Has (r : Region) (p : Ptr) : Prop :=
  p.block = r.start.block ∧ r.start.offset ≤ p.offset ∧ p.offset < r.start.offset + r.length

/-- The regions have no byte in common. -/
def Region.Apart (r r' : Region) : Prop := ∀ p, r.Has p → ¬r'.Has p

namespace Arena

/-- The region is in one page, among the bytes that are spent. -/
def Spent (s : Arena) (r : Region) : Prop :=
  ∃ (i : Nat) (used : Nat), s.pages[i]? = some r.start.block ∧ s.pageUsed[i]? = some used ∧ r.start.offset + r.length ≤ used

/-- **The invariant**, with the regions that are live. -/
structure Sound (s : Arena) (a : Alloc) (live : List Region) : Prop where
  pages : s.pages.length = s.pageCount
  pageSizes : s.pageSizes.length = s.pageCount
  pageUsed : s.pageUsed.length = s.pageCount
  room : s.pageCount ≤ s.pageCap
  cap : s.pageCap < 2 ^ 64
  nodup : s.pages.Nodup
  granted : ∀ p ∈ s.pages, p < a.asked
  within : ∀ (i size used : Nat), s.pageSizes[i]? = some size → s.pageUsed[i]? = some used → used ≤ size ∧ size < 2 ^ 64
  pageSize : s.pageSize < 2 ^ 64
  spent : ∀ r ∈ live, s.Spent r
  apart : live.Pairwise Region.Apart

theorem alignUp_spec {v need : Nat} (h : alignUp v arenaAlign = some need) : v ≤ need ∧ need < 2 ^ 64 := by
  unfold alignUp arenaAlign sizeMax at h
  split at h
  · exact absurd h nofun
  · obtain rfl := Option.some.inj h
    omega

theorem sound_init (pageSize : Nat) (a : Alloc) : (init pageSize).Sound a [] := by
  refine ⟨rfl, rfl, rfl, le_refl _, Nat.two_pow_pos 64, List.nodup_nil, nofun, nofun, ?_, nofun, List.Pairwise.nil⟩
  unfold init
  dsimp only
  split
  · decide
  · cases h : alignUp pageSize arenaAlign with
    | none => exact (by decide : arenaDefaultPage < 2 ^ 64)
    | some need => exact (alignUp_spec h).2

/-! ## A request -/

variable {s : Arena} {a : Alloc} {live : List Region} {need : Nat}

theorem fits_spec (hs : s.Sound a live) {i : Nat} (hi : i < s.pageCount) (need : Nat) :
    ∃ size used, s.pageSizes[i]? = some size ∧ s.pageUsed[i]? = some used ∧
      s.fits need i = some (decide (used + need ≤ size)) := by
  have hsize := List.getElem?_eq_getElem (hs.pageSizes.symm ▸ hi)
  have hused := List.getElem?_eq_getElem (hs.pageUsed.symm ▸ hi)
  obtain ⟨hle, hlt⟩ := hs.within i _ _ hsize hused
  refine ⟨_, _, hsize, hused, ?_⟩
  rw [fits, hsize, hused, Option.bind_some, Option.map_some, wrap]
  congr 2
  exact propext (by omega)

theorem findM_some {α : Type} {p : α → Option Bool} {q : α → Bool} {l : List α} (h : ∀ x ∈ l, p x = some (q x)) :
    l.findM? p = some (l.find? q) := by
  induction l with
  | nil => rfl
  | cons x rest ih =>
    rw [List.findM?, h x List.mem_cons_self, List.find?_cons]
    cases q x with
    | true => rfl
    | false => exact ih fun y hy => h y (List.mem_cons_of_mem x hy)

/-- `grow_page_table` makes room, or leaves the arena as it is. -/
theorem growPageTable_spec (hs : s.Sound a live) :
    a.Follows (s.growPageTable a).2.2 ∧
      match (s.growPageTable a).1 with
      | true => ∃ cap, s.pageCount < cap ∧ cap < 2 ^ 64 ∧ (s.growPageTable a).2.1 = { s with pageCap := cap }
      | false => (s.growPageTable a).2.1 = s := by
  have hroom := hs.room
  have hcap := hs.cap
  unfold growPageTable
  by_cases hfree : s.pageCount < s.pageCap
  · rw [if_pos hfree]
    exact ⟨⟨rfl, le_refl _⟩, s.pageCap, hfree, hcap, rfl⟩
  · rw [if_neg hfree]
    dsimp only
    have hnew : (if s.pageCap = 0 then arenaInitPages else wrap (s.pageCap * 2)) < 2 ^ 64 ∧
        ((if s.pageCap = 0 then arenaInitPages else wrap (s.pageCap * 2)) < s.pageCap ∨
          s.pageCount < if s.pageCap = 0 then arenaInitPages else wrap (s.pageCap * 2)) := by
      unfold arenaInitPages wrap
      split
      · omega
      · omega
    generalize (if s.pageCap = 0 then arenaInitPages else wrap (s.pageCap * 2)) = newcap at hnew
    by_cases hbytes : newcap < s.pageCap ∨ memArrayBytes newcap 8 = 0 ∨ memArrayBytes newcap 8 = 0
    · rw [if_pos hbytes]
      exact ⟨⟨rfl, le_refl _⟩, rfl⟩
    · rw [if_neg hbytes]
      obtain ⟨hfollows, -⟩ := three_spec a
      generalize a.three = r at hfollows
      obtain ⟨ok, b⟩ := r
      cases ok with
      | true => exact ⟨hfollows, newcap, by omega, hnew.1, rfl⟩
      | false => exact ⟨hfollows, rfl⟩

/-- The invariant is about the tables, and about requests that are made. -/
theorem Sound.mono (hs : s.Sound a live) {s' : Arena} {b : Alloc} (hfollows : a.Follows b)
    (hsame : s' = { s with pageCap := s'.pageCap, curPage := s'.curPage, oom := s'.oom })
    (hroom : s.pageCount ≤ s'.pageCap) (hcap : s'.pageCap < 2 ^ 64) : s'.Sound b live := by
  rw [hsame]
  exact ⟨hs.pages, hs.pageSizes, hs.pageUsed, hroom, hcap, hs.nodup,
    fun p hp => Nat.lt_of_lt_of_le (hs.granted p hp) hfollows.2, hs.within, hs.pageSize, hs.spent, hs.apart⟩

theorem getElem?_append_some {l more : List Nat} {i x : Nat} (h : l[i]? = some x) : (l ++ more)[i]? = some x := by
  rw [List.getElem?_append_left (List.getElem?_eq_some_iff.mp h).1, h]

/-- **A new page** is a block of its own. -/
theorem addPage_spec (hs : s.Sound a live) (hfree : s.pageCount < s.pageCap) {size : Nat} (hsize : size < 2 ^ 64) :
    ∃ s', s.addPage size a.asked = some s' ∧ s'.Sound a.request.2 live ∧
      s'.pages[s'.curPage]? = some a.asked ∧ s'.pageSizes[s'.curPage]? = some size ∧
      s'.pageUsed[s'.curPage]? = some 0 := by
  refine ⟨_, if_pos hfree, ⟨?_, ?_, ?_, hfree, hs.cap, ?_, ?_, ?_, hs.pageSize, ?_, hs.apart⟩, ?_, ?_, ?_⟩
  · rw [List.length_append, hs.pages]
    rfl
  · rw [List.length_append, hs.pageSizes]
    rfl
  · rw [List.length_append, hs.pageUsed]
    rfl
  · refine List.nodup_append.mpr ⟨hs.nodup, List.nodup_singleton _, fun p hp q hq => ?_⟩
    rw [List.mem_singleton.mp hq]
    exact (hs.granted p hp).ne
  · intro p hp
    rcases List.mem_append.mp hp with hp | hp
    · exact Nat.lt_succ_of_lt (hs.granted p hp)
    · rw [List.mem_singleton.mp hp]
      exact Nat.lt_succ_self _
  · intro i sz used hsz hused
    rcases Nat.lt_or_ge i s.pageCount with hi | hi
    · rw [List.getElem?_append_left (by rw [hs.pageSizes]; exact hi)] at hsz
      rw [List.getElem?_append_left (by rw [hs.pageUsed]; exact hi)] at hused
      exact hs.within i sz used hsz hused
    · rw [List.getElem?_append_right (by rw [hs.pageSizes]; exact hi)] at hsz
      rw [List.getElem?_append_right (by rw [hs.pageUsed]; exact hi)] at hused
      obtain rfl := List.mem_singleton.mp (List.mem_of_getElem? hsz)
      obtain rfl := List.mem_singleton.mp (List.mem_of_getElem? hused)
      exact ⟨Nat.zero_le _, hsize⟩
  · intro r hr
    obtain ⟨i, used, hpage, hused, hle⟩ := hs.spent r hr
    exact ⟨i, used, getElem?_append_some hpage, getElem?_append_some hused, hle⟩
  · rw [← hs.pages, List.getElem?_concat_length]
  · rw [← hs.pageSizes, List.getElem?_concat_length]
  · rw [← hs.pageUsed, List.getElem?_concat_length]

/-- **The page that is chosen** has room; where none is, the tables are as they were. -/
theorem choosePage_spec (hs : s.Sound a live) (hneed : need < 2 ^ 64) :
    ∃ out, s.choosePage a need = some out ∧ a.Follows out.2.2 ∧ out.2.1.Sound out.2.2 live ∧
      match out.1 with
      | true => ∃ block size used, out.2.1.pages[out.2.1.curPage]? = some block ∧
          out.2.1.pageSizes[out.2.1.curPage]? = some size ∧ out.2.1.pageUsed[out.2.1.curPage]? = some used ∧
          used + need ≤ size
      | false => out.2.1 = { s with pageCap := out.2.1.pageCap } := by
  have hroom := hs.room
  -- what comes of a page that has room
  have hchosen : ∀ i < s.pageCount, s.fits need i = some true →
      ({ s with curPage := i } : Arena).Sound a live ∧ ∃ block size used, s.pages[i]? = some block ∧
        s.pageSizes[i]? = some size ∧ s.pageUsed[i]? = some used ∧ used + need ≤ size := by
    intro i hi hfits
    obtain ⟨size, used, hsize, hused, hdecide⟩ := fits_spec hs hi need
    rw [hdecide] at hfits
    have hle := of_decide_eq_true (Option.some.inj hfits)
    exact ⟨hs.mono ⟨rfl, le_refl _⟩ rfl hroom hs.cap, _, size, used,
      List.getElem?_eq_getElem (hs.pages.symm ▸ hi), hsize, hused, hle⟩
  have hfirst : ∃ b, (if s.curPage < s.pageCount then s.fits need s.curPage else some false) = some b ∧
      (b = true → s.curPage < s.pageCount ∧ s.fits need s.curPage = some true) := by
    by_cases hcur : s.curPage < s.pageCount
    · obtain ⟨size, used, -, -, hdecide⟩ := fits_spec hs hcur need
      rw [if_pos hcur]
      exact ⟨_, hdecide, fun htrue => ⟨hcur, by rw [hdecide, htrue]⟩⟩
    · rw [if_neg hcur]
      exact ⟨false, rfl, nofun⟩
  obtain ⟨b, hb, hkeep⟩ := hfirst
  unfold choosePage
  rw [hb, Option.bind_some]
  cases b with
  | true =>
    obtain ⟨hcur, hfits⟩ := hkeep rfl
    exact ⟨_, rfl, ⟨rfl, le_refl _⟩, hchosen s.curPage hcur hfits⟩
  | false =>
    have htotal : ∀ i ∈ List.range s.pageCount, s.fits need i = some ((s.fits need i).getD false) := by
      intro i hi
      obtain ⟨size, used, -, -, hdecide⟩ := fits_spec hs (List.mem_range.mp hi) need
      rw [hdecide, Option.getD_some]
    dsimp only
    rw [findM_some htotal, Option.bind_some]
    cases hfind : (List.range s.pageCount).find? fun i => (s.fits need i).getD false with
    | some i =>
      have hi := List.mem_range.mp (List.mem_of_find?_eq_some hfind)
      have hfits := htotal i (List.mem_range.mpr hi)
      rw [List.find?_some hfind] at hfits
      exact ⟨_, rfl, ⟨rfl, le_refl _⟩, hchosen i hi hfits⟩
    | none =>
      dsimp only
      obtain ⟨hfollows, hgrown⟩ := growPageTable_spec hs
      generalize s.growPageTable a = r at hfollows hgrown
      obtain ⟨ok, grown, b⟩ := r
      cases ok with
      | false =>
        obtain rfl : grown = s := hgrown
        exact ⟨_, rfl, hfollows, hs.mono hfollows rfl hroom hs.cap, rfl⟩
      | true =>
        obtain ⟨cap, hfree, hcap, hgrown⟩ := hgrown
        obtain rfl : grown = _ := hgrown
        have hs' : ({ s with pageCap := cap } : Arena).Sound b live := hs.mono hfollows rfl hfree.le hcap
        have hrequest := request_follows b
        obtain ⟨⟨ok, c⟩, hc⟩ : ∃ r, b.request = r := ⟨_, rfl⟩
        rw [hc] at hrequest
        dsimp only
        rw [hc]
        have hfollows' : a.Follows c := ⟨hrequest.1.trans hfollows.1, Nat.le_trans hfollows.2 hrequest.2⟩
        cases ok with
        | false => exact ⟨_, rfl, hfollows', hs'.mono hrequest rfl hfree.le hcap, rfl⟩
        | true =>
          have hroom : (if s.pageSize < need then need else s.pageSize) < 2 ^ 64 := by
            have hpage := hs.pageSize
            split
            · exact hneed
            · exact hpage
          obtain ⟨s', hadd, hsound, hblock, hsize, hused⟩ := addPage_spec (s := { s with pageCap := cap }) hs' hfree hroom
          dsimp only
          rw [hadd]
          rw [hc] at hsound
          refine ⟨_, rfl, hfollows', hsound, _, _, _, hblock, hsize, hused, ?_⟩
          split
          · omega
          · omega

/-! ## The bytes -/

/-- **The bytes behind the ones that are spent** are apart from every live region. -/
theorem Sound.take (hs : s.Sound a live) {block size used : Nat} (hblock : s.pages[s.curPage]? = some block)
    (hsize : s.pageSizes[s.curPage]? = some size) (hused : s.pageUsed[s.curPage]? = some used)
    (hfits : used + need ≤ size) :
    ({ s with pageUsed := s.pageUsed.set s.curPage (used + need) } : Arena).Sound a (⟨⟨block, used⟩, need⟩ :: live) := by
  have hin : s.curPage < s.pageUsed.length := (List.getElem?_eq_some_iff.mp hused).1
  refine ⟨hs.pages, hs.pageSizes, ?_, hs.room, hs.cap, hs.nodup, hs.granted, ?_, hs.pageSize, ?_, ?_⟩
  · rw [List.length_set]
    exact hs.pageUsed
  · intro i sz u hsz hu
    by_cases hi : s.curPage = i
    · subst hi
      rw [List.getElem?_set_self hin] at hu
      rw [hsize] at hsz
      cases hu
      cases hsz
      exact ⟨hfits, (hs.within _ _ _ hsize hused).2⟩
    · rw [List.getElem?_set_ne hi] at hu
      exact hs.within i sz u hsz hu
  · intro r hr
    rcases List.mem_cons.mp hr with rfl | hr
    · exact ⟨s.curPage, used + need, hblock, List.getElem?_set_self hin, le_refl _⟩
    · obtain ⟨i, u, hpage, hu, hle⟩ := hs.spent r hr
      by_cases hi : s.curPage = i
      · subst hi
        rw [hused] at hu
        cases hu
        exact ⟨s.curPage, used + need, hpage, List.getElem?_set_self hin, by omega⟩
      · exact ⟨i, u, hpage, by rw [List.getElem?_set_ne hi, hu], hle⟩
  · refine List.pairwise_cons.mpr ⟨fun r hr p hp hr' => ?_, hs.apart⟩
    obtain ⟨i, u, hpage, hu, hle⟩ := hs.spent r hr
    have hpos : i = s.curPage := by
      have hsame : s.pages[i]? = s.pages[s.curPage]? := by rw [hpage, hblock, ← hr'.1, hp.1]
      exact (List.getElem?_inj (List.getElem?_eq_some_iff.mp hpage).1 hs.nodup).mp hsame
    subst hpos
    rw [hused] at hu
    cases hu
    have hlow : used ≤ p.offset := hp.2.1
    have hhigh := hr'.2.2
    omega

/-- **`bbq_arena_alloc`**: the bytes are apart from the live ones, or nothing but the flag and room for more pages
changes. -/
theorem alloc_spec (hs : s.Sound a live) (size : Nat) :
    ∃ out, s.alloc a size = some out ∧ a.Follows out.2.2 ∧
      match out.1 with
      | some p => ∃ need, alignUp size arenaAlign = some need ∧ out.2.1.Sound out.2.2 (⟨p, need⟩ :: live)
      | none => out.2.1.Sound out.2.2 live ∧
          out.2.1 = { s with pageCap := out.2.1.pageCap, oom := out.2.1.oom } := by
  have hself : a.Follows a := ⟨rfl, le_refl _⟩
  unfold alloc
  by_cases hzero : size = 0
  · rw [if_pos hzero]
    exact ⟨_, rfl, hself, hs, rfl⟩
  · rw [if_neg hzero]
    by_cases hoom : s.oom = true
    · rw [if_pos hoom]
      exact ⟨_, rfl, hself, hs, rfl⟩
    · rw [if_neg hoom]
      cases halign : alignUp size arenaAlign with
      | none => exact ⟨_, rfl, hself, hs.mono hself rfl hs.room hs.cap, rfl⟩
      | some need =>
        obtain ⟨⟨ok, s', b⟩, hchoose, hfollows, hsound, hres⟩ := choosePage_spec hs (alignUp_spec halign).2
        dsimp only
        rw [hchoose, Option.bind_some]
        cases ok with
        | false =>
          refine ⟨_, rfl, hfollows, hsound.mono ⟨rfl, le_refl _⟩ rfl hsound.room hsound.cap, ?_⟩
          dsimp only at hres ⊢
          rw [hres]
        | true =>
          obtain ⟨block, sz, used, hblock, hsize, hused, hfits⟩ := hres
          have hlt := (hsound.within _ _ _ hsize hused).2
          have hwrap : wrap (used + need) = used + need := Nat.mod_eq_of_lt (by omega)
          dsimp only at hblock hused ⊢
          rw [hblock, hused, Option.bind_some, Option.map_some, hwrap]
          exact ⟨_, rfl, hfollows, need, rfl, hsound.take hblock hsize hused hfits⟩

theorem reset_sound (hs : s.Sound a live) : s.reset.Sound a [] := by
  refine ⟨hs.pages, hs.pageSizes, ?_, hs.room, hs.cap, hs.nodup, hs.granted, ?_, hs.pageSize, nofun, List.Pairwise.nil⟩
  · exact (List.length_map _).trans hs.pageUsed
  · intro i size used hsize hused
    obtain ⟨u, hu, rfl⟩ := Option.map_eq_some_iff.mp ((List.getElem?_map ..).symm.trans hused)
    exact ⟨Nat.zero_le _, (hs.within i size u hsize hu).2⟩

end Arena

/-! ## Runs -/

/-- The calls of a user. -/
inductive ArenaCall
  | alloc (size : Nat)
  | reset

namespace Arena

/-- A list of calls: the arena then, and the regions since the last reset with what was asked for. -/
def run (s : Arena) (a : Alloc) (live : List (Nat × Region)) :
    List ArenaCall → Option (Arena × Alloc × List (Nat × Region))
  | [] => some (s, a, live)
  | .alloc size :: cs =>
    (s.alloc a size).bind fun
      | (some p, s, a) => s.run a ((size, ⟨p, (alignUp size arenaAlign).getD 0⟩) :: live) cs
      | (none, s, a) => s.run a live cs
  | .reset :: cs => s.reset.run a [] cs

theorem run_sound (cs : List ArenaCall) {s : Arena} {a : Alloc} {live : List (Nat × Region)}
    (hs : s.Sound a (live.map Prod.snd)) (hasked : ∀ x ∈ live, x.1 ≤ x.2.length) :
    ∃ s' a' live', s.run a live cs = some (s', a', live') ∧ s'.Sound a' (live'.map Prod.snd) ∧
      ∀ x ∈ live', x.1 ≤ x.2.length := by
  induction cs generalizing s a live with
  | nil => exact ⟨s, a, live, rfl, hs, hasked⟩
  | cons c cs ih =>
    cases c with
    | reset =>
      have hsound : s.reset.Sound a (([] : List (Nat × Region)).map Prod.snd) := reset_sound hs
      exact ih hsound nofun
    | alloc size =>
      obtain ⟨⟨p, s', b⟩, halloc, -, hres⟩ := alloc_spec hs size
      rw [run, halloc, Option.bind_some]
      cases p with
      | none => exact ih hres.1 hasked
      | some p =>
        obtain ⟨need, halign, hsound⟩ := hres
        dsimp only
        rw [halign, Option.getD_some]
        have hsound' : s'.Sound b (((size, ⟨p, need⟩) :: live).map Prod.snd) := hsound
        exact ih hsound'
          (List.forall_mem_cons.mpr ⟨(alignUp_spec halign).1, hasked⟩)

/-- **The regions of an arena**, in any run and under any pattern of refusals. -/
theorem arena_regions (pageSize : Nat) (grant : Nat → Bool) (cs : List ArenaCall) :
    ∃ s a live, (init pageSize).run ⟨grant, 0⟩ [] cs = some (s, a, live) ∧
      live.Pairwise (fun x y => x.2.Apart y.2) ∧
      (∀ x ∈ live, x.1 ≤ x.2.length ∧ ∃ (i : Nat) (size : Nat), s.pages[i]? = some x.2.start.block ∧
        s.pageSizes[i]? = some size ∧ x.2.start.offset + x.2.length ≤ size) ∧
      s.pages.Nodup ∧
      (∀ (i used size : Nat), s.pageUsed[i]? = some used → s.pageSizes[i]? = some size → used ≤ size) ∧
      ∀ size, ∃ out, s.alloc a size = some out ∧
        (out.1 = none → out.2.1 = { s with pageCap := out.2.1.pageCap, oom := out.2.1.oom }) := by
  have hstart : (init pageSize).Sound ⟨grant, 0⟩ (([] : List (Nat × Region)).map Prod.snd) := sound_init pageSize ⟨grant, 0⟩
  obtain ⟨s, a, live, hrun, hs, hasked⟩ := run_sound cs hstart nofun
  refine ⟨s, a, live, hrun, List.pairwise_map.mp hs.apart, fun x hx => ⟨hasked x hx, ?_⟩, hs.nodup,
    fun i used size hused hsize => (hs.within i size used hsize hused).1, fun size => ?_⟩
  · obtain ⟨i, used, hpage, hused, hle⟩ := hs.spent x.2 (List.mem_map_of_mem hx)
    have hi : i < s.pageSizes.length := by
      rw [hs.pageSizes, ← hs.pages]
      exact (List.getElem?_eq_some_iff.mp hpage).1
    have hsize := List.getElem?_eq_getElem hi
    exact ⟨i, _, hpage, hsize, le_trans hle (hs.within i _ used hsize hused).1⟩
  · obtain ⟨⟨p, s', b⟩, halloc, -, hres⟩ := alloc_spec hs size
    refine ⟨_, halloc, fun hno => ?_⟩
    obtain rfl : p = none := hno
    exact hres.2

end Arena

end Bbq.Crt
