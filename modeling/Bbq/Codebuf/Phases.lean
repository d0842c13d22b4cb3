import Mathlib.Data.Nat.Basic
import Bbq.Codebuf.Image

/-!
# The phases are kept, where the condition is met

`Ready` is the invariant of the buffer beside its image: the code lies inside the mapping, and, unless the
buffer is marked failed, is the image at the present address. Before the seal no field depends on the
address, so the mapping may move (`Ready.grown`).

* `step_good`: a call that meets the condition is defined, does what it must, and keeps the invariant.
* **`phases_iff`**: so does a whole run, exactly where every call meets the condition.
-/

namespace Bbq.Codebuf

open Bbq.Lib Bbq.Zcow

variable {page : Page} {b b' : CodeBuf} {image : Image} {op : Op} {eff : Effect}

/-! ## Pages -/

theorem Page.dvd (page : Page) : page.size.toNat ∣ 2 ^ 64 := by
  obtain ⟨k, hk, hsize⟩ := page.pow
  rw [hsize]
  exact Nat.pow_dvd_pow 2 (le_of_lt hk)

theorem Page.pos (page : Page) : 0 < page.size.toNat := by
  obtain ⟨k, -, hsize⟩ := page.pow
  rw [hsize]
  exact Nat.two_pow_pos k

theorem toNat_pageAlign (page : Page) (n : UInt64) : (pageAlign page n).toNat =
    page.size.toNat * (((n.toNat + page.size.toNat) % 2 ^ 64 + (2 ^ 64 - 1)) % 2 ^ 64 / page.size.toNat) := by
  have hm : (n + page.size - 1).toNat = ((n.toNat + page.size.toNat) % 2 ^ 64 + (2 ^ 64 - 1)) % 2 ^ 64 := by
    rw [UInt64.toNat_sub, UInt64.toNat_add, Nat.add_comm]
    rfl
  have hle : (n + page.size - 1) % page.size ≤ n + page.size - 1 := by
    rw [UInt64.le_iff_toNat_le, UInt64.toNat_mod]
    exact Nat.mod_le _ _
  rw [pageAlign, UInt64.toNat_sub_of_le _ _ hle, UInt64.toNat_mod, hm]
  exact Nat.sub_eq_of_eq_add (Nat.div_add_mod _ _).symm

theorem dvd_pageAlign (page : Page) (n : UInt64) : page.size.toNat ∣ (pageAlign page n).toNat := by
  rw [toNat_pageAlign]
  exact Nat.dvd_mul_right _ _

/-- Below a capacity, rounding up does not wrap. -/
theorem le_pageAlign {n cap : UInt64} (hle : n.toNat ≤ cap.toNat) (hcap : page.size.toNat ∣ cap.toNat) :
    n.toNat ≤ (pageAlign page n).toNat := by
  have hpos := page.pos
  obtain ⟨c, hc⟩ := hcap
  obtain ⟨d, hd⟩ := page.dvd
  have hlt := cap.toNat_lt
  have hcd : c < d := by
    rw [hc, hd] at hlt
    exact Nat.lt_of_mul_lt_mul_left hlt
  have hroom : n.toNat + page.size.toNat ≤ 2 ^ 64 := by
    have hmul : page.size.toNat * (c + 1) ≤ page.size.toNat * d := Nat.mul_le_mul_left _ hcd
    rw [Nat.mul_add, Nat.mul_one, ← hc, ← hd] at hmul
    omega
  have hsum : ((n.toNat + page.size.toNat) % 2 ^ 64 + (2 ^ 64 - 1)) % 2 ^ 64 = n.toNat + page.size.toNat - 1 := by
    omega
  rw [toNat_pageAlign, hsum]
  have hdiv := Nat.div_add_mod (n.toNat + page.size.toNat - 1) page.size.toNat
  have hmod := Nat.mod_lt (n.toNat + page.size.toNat - 1) hpos
  omega

/-! ## The invariant -/

/-- The code lies inside the mapping. -/
structure Placed (page : Page) (b : CodeBuf) : Prop where
  mem : b.mem.length = b.cap.toNat
  size : b.size.toNat ≤ b.cap.toNat
  pages : page.size.toNat ∣ b.cap.toNat

/-- No byte depends on the address. -/
def Unplaced (image : Image) : Prop :=
  ∀ (k : Nat) (target : UInt64) (i : Nat), image[k]? ≠ some (Cell.rel target i)

/-- The code is the image at `base`. -/
structure Faithful (b : CodeBuf) (image : Image) : Prop where
  size : b.size.toNat = image.length
  bytes : b.mem.take b.size.toNat = resolve b.base image
  unsealed : b.isSealed = false → Unplaced image
  near : ∀ (k : Nat) (target : UInt64) (i : Nat), image[k]? = some (Cell.rel target i) → Near b.base (k - i) target

structure Ready (page : Page) (b : CodeBuf) (image : Image) : Prop extends Placed page b where
  faithful : b.failed = false → Faithful b image

theorem Ready.failed (h : Placed page b) : Ready page { b with failed := true } image where
  mem := h.mem
  size := h.size
  pages := h.pages
  faithful := fun h => by cases h

theorem good_fail (b : CodeBuf) : Good image op (fail b).1 (fail b).2 where
  refused := fun _ => rfl
  within := fun w hw => by cases hw
  delivered := fun p hp => by cases hp

/-- Where no field depends on the address, neither do the bytes. -/
theorem resolve_move (h : Unplaced image) (base base' : Nat) :
    resolve base image = resolve base' image := by
  refine List.ext_getElem? fun k => ?_
  rw [getElem?_resolve, getElem?_resolve]
  cases hk : image[k]? with
  | none => rw [Option.map_none, Option.map_none]
  | some cell =>
    cases cell with
    | byte v => simp only [Option.map_some, Cell.resolve]
    | rel target i => exact absurd hk (h k target i)

/-! ## Writing -/

theorem poke_eq {start : Nat} {data : List UInt8}
    (h : data = [] ∨ b.writable = true ∧ start + data.length ≤ b.mem.length) :
    poke b start data = some { b with mem := splice b.mem start data } := if_pos h

theorem poke_none {start : Nat} {data : List UInt8}
    (h : ¬(data = [] ∨ b.writable = true ∧ start + data.length ≤ b.mem.length)) : poke b start data = none := if_neg h

/-- The mapping moves before the seal. -/
theorem Ready.grown (h : Ready page b image) (hseal : b.isSealed = false) (base : Nat) {cap : UInt64}
    (hcap : b.size.toNat ≤ cap.toNat) (hpages : page.size.toNat ∣ cap.toNat) :
    Ready page { b with
      base, cap, mem := splice (List.replicate cap.toNat 0) 0 (b.mem.take b.size.toNat), writable := true } image := by
  have hlen : (b.mem.take b.size.toNat).length = b.size.toNat := by
    rw [List.length_take, h.mem, Nat.min_eq_left h.size]
  refine ⟨⟨?_, hcap, hpages⟩, fun hok => ?_⟩
  · rw [length_splice (by rw [hlen, List.length_replicate]; omega), List.length_replicate]
  · have hf := h.faithful hok
    refine ⟨hf.size, ?_, hf.unsealed, fun k target i hk => absurd hk (hf.unsealed hseal k target i)⟩
    change (splice (List.replicate cap.toNat 0) 0 (b.mem.take b.size.toNat)).take b.size.toNat = resolve base image
    rw [resolve_move (hf.unsealed hseal) base b.base, ← hf.bytes, splice, List.take_zero, List.nil_append,
      List.take_append_of_le_length (by rw [hlen]), List.take_take, Nat.min_self]

/-- Code goes behind what is there. -/
theorem Ready.emitted (h : Ready page b image) (hseal : b.isSealed = false) {data : List UInt8}
    (hroom : b.size.toNat + data.length ≤ b.cap.toNat) :
    (b.size + UInt64.ofNat data.length).toNat = b.size.toNat + data.length ∧
      Ready page { b with mem := splice b.mem b.size.toNat data, size := b.size + UInt64.ofNat data.length }
        (image ++ data.map .byte) := by
  have hlt := b.cap.toNat_lt
  have hsize : (b.size + UInt64.ofNat data.length).toNat = b.size.toNat + data.length := by
    rw [UInt64.toNat_add, UInt64.toNat_ofNat']
    omega
  refine ⟨hsize, ⟨?_, ?_, h.pages⟩, fun hok => ?_⟩
  · rw [length_splice (by rw [h.mem]; exact hroom)]
    exact h.mem
  · rw [hsize]
    exact hroom
  · have hf := h.faithful hok
    have hnone : Unplaced (image ++ data.map Cell.byte) := by
      intro k target i hk
      rcases List.mem_append.mp (List.mem_of_getElem? hk) with hmem | hmem
      · obtain ⟨k', hk'⟩ := List.getElem?_of_mem hmem
        exact hf.unsealed hseal k' target i hk'
      · obtain ⟨v, -, hv⟩ := List.mem_map.mp hmem
        cases hv
    refine ⟨?_, ?_, fun _ => hnone, fun k target i hk => absurd hk (hnone k target i)⟩
    · rw [hsize, List.length_append, List.length_map, hf.size]
    · change (splice b.mem b.size.toNat data).take (b.size + UInt64.ofNat data.length).toNat = _
      have htake : (b.mem.take b.size.toNat).length = b.size.toNat := by
        rw [List.length_take, h.mem, Nat.min_eq_left h.size]
      rw [hsize, resolve_append_bytes, ← hf.bytes, splice,
        List.take_append_of_le_length (by rw [List.length_append, htake]), List.take_of_length_le]
      rw [List.length_append, htake]

/-- Cells are put over cells. -/
theorem Ready.patched (h : Ready page b image) {off : Nat} {data : List UInt8} {cells : Image}
    (hlen : cells.length = data.length) (hoff : off + data.length ≤ b.size.toNat)
    (hbytes : ∀ image : Image, off + data.length ≤ image.length →
      resolve b.base (splice image off cells) = splice (resolve b.base image) off data)
    (hcells : ∀ (j : Nat) (target : UInt64) (i : Nat), cells[j]? = some (Cell.rel target i) →
      b.isSealed = true ∧ Near b.base (off + j - i) target) :
    Ready page { b with mem := splice b.mem off data } (splice image off cells) := by
  have hsize := h.size
  have hmem : off + data.length ≤ b.mem.length := by
    rw [h.mem]
    omega
  refine ⟨⟨?_, h.size, h.pages⟩, fun hok => ?_⟩
  · rw [length_splice hmem]
    exact h.mem
  · have hf := h.faithful hok
    have hin : off + data.length ≤ image.length := by
      rw [← hf.size]
      exact hoff
    have hold : ∀ (k : Nat) (target : UInt64) (i : Nat), (splice image off cells)[k]? = some (Cell.rel target i) →
        (b.isSealed = true ∧ Near b.base (k - i) target) ∨ image[k]? = some (Cell.rel target i) := by
      intro k target i hk
      rw [getElem?_splice (by rw [hlen]; exact hin)] at hk
      split at hk
      · next hpos =>
        have hback : off + (k - off) = k := by omega
        have hnew := hcells (k - off) target i hk
        rw [hback] at hnew
        exact .inl hnew
      · exact .inr hk
    refine ⟨?_, ?_, fun hseal k target i hk => ?_, fun k target i hk => ?_⟩
    · rw [length_splice (by rw [hlen]; exact hin)]
      exact hf.size
    · rw [hbytes image hin, ← hf.bytes]
      exact take_splice hoff
    · rcases hold k target i hk with ⟨hsealed, -⟩ | hk
      · rw [hseal] at hsealed
        cases hsealed
      · exact hf.unsealed hseal k target i hk
    · rcases hold k target i hk with ⟨-, hnear⟩ | hk
      · exact hnear
      · exact hf.near k target i hk

/-! ## The calls -/

/-- A call that is defined, does what it must and keeps the invariant. -/
def Keeps (page : Page) (image : Image) (op : Op) (r : Option (CodeBuf × Effect)) : Prop :=
  ∃ b' eff, r = some (b', eff) ∧ Good image op b' eff ∧ Ready page b' (intended image op)

theorem keeps_fail (h : Placed page b) : Keeps page image op (some (fail b)) :=
  ⟨_, _, rfl, good_fail b, Ready.failed h⟩

theorem good_wrote {w : Nat × Nat} (hw : w.1 + w.2 ≤ b.size.toNat) :
    Good image op b { Effect.done with wrote := [w] } where
  refused := fun h => by cases h
  within := fun w' hw' => by
    obtain rfl := List.mem_singleton.mp hw'
    exact hw
  delivered := fun p hp => by cases hp

theorem good_done : Good image op b .done where
  refused := nofun
  within := nofun
  delivered := nofun

theorem emit_iff (h : Ready page b image) (data : List UInt8) (map : Option Nat) :
    (Meets page b (.emit data map) → Keeps page image (.emit data map) (jcbEmit page b data map)) ∧
      (¬ Meets page b (.emit data map) → jcbEmit page b data map = none) := by
  unfold jcbEmit Meets
  dsimp only
  by_cases hseal : b.isSealed = true
  · rw [if_pos hseal]
    exact ⟨fun _ => keeps_fail h.toPlaced, fun hno => absurd (.inl hseal) hno⟩
  · have hopen : b.isSealed = false := eq_false_of_ne_true hseal
    rw [if_neg hseal]
    unfold jcbReserve
    by_cases hcap : b.size + UInt64.ofNat data.length ≤ b.cap
    · rw [if_pos hcap, if_pos hcap, Option.bind_some]
      dsimp only
      rw [if_pos rfl]
      constructor
      · intro hm
        have hm' := hm.resolve_left hseal
        have hroom : b.size.toNat + data.length ≤ b.cap.toNat := by
          rcases hm' with hnil | ⟨-, hroom⟩
          · rw [hnil]
            exact h.size
          · exact hroom
        obtain ⟨hsize, hready⟩ := h.emitted hopen hroom
        rw [poke_eq (hm'.imp_right fun hm => ⟨hm.1, by rw [h.mem]; exact hm.2⟩)]
        exact ⟨_, _, rfl, good_wrote (le_of_eq hsize.symm), hready⟩
      · intro hno
        rw [poke_none, Option.map_none]
        rintro (hnil | ⟨hw, hroom⟩)
        · exact hno (.inr (.inl hnil))
        · rw [h.mem] at hroom
          exact hno (.inr (.inr ⟨hw, hroom⟩))
    · rw [if_neg hcap, if_neg hcap]
      by_cases hfin : b.finalized = true
      · have hrefused : (b.isSealed || b.finalized) = true := by rw [hfin, Bool.or_true]
        rw [if_pos hrefused, Option.bind_some]
        dsimp only
        rw [if_neg Bool.false_ne_true]
        exact ⟨fun _ => keeps_fail h.toPlaced, fun hno => absurd (.inr (.inl hfin)) hno⟩
      · have hgrows : ¬(b.isSealed || b.finalized) = true := by
          rw [hopen, eq_false_of_ne_true hfin]
          exact Bool.false_ne_true
        rw [if_neg hgrows]
        cases map with
        | none =>
          dsimp only
          rw [Option.bind_some]
          dsimp only
          rw [if_neg Bool.false_ne_true]
          exact ⟨fun _ => keeps_fail h.toPlaced, fun hno => absurd (.inr (.inr (.inl rfl))) hno⟩
        | some base =>
          dsimp only
          generalize hgrow : growTo page b (UInt64.ofNat data.length) = cap
          have hpages : page.size.toNat ∣ cap.toNat := by
            rw [← hgrow]
            exact dvd_pageAlign page _
          have hlen : (b.mem.take b.size.toNat).length = b.size.toNat := by
            rw [List.length_take, h.mem, Nat.min_eq_left h.size]
          constructor
          · intro hm
            have hroom : b.size.toNat + data.length ≤ cap.toNat := by
              rcases hm with hm | hm | hm | hm
              · exact absurd hm hseal
              · exact absurd hm hfin
              · cases hm
              · exact hm
            have hgrown := h.grown hopen base (by omega) hpages
            rw [poke_eq (.inr ⟨rfl, by rw [hlen, List.length_replicate]; omega⟩), Option.map_some, Option.bind_some]
            dsimp only
            rw [if_pos rfl]
            obtain ⟨hsize, hready⟩ := hgrown.emitted hopen hroom
            rw [poke_eq (.inr ⟨rfl, by rw [hgrown.mem]; exact hroom⟩)]
            exact ⟨_, _, rfl, good_wrote (le_of_eq hsize.symm), hready⟩
          · intro hno
            have hsmall : ¬ b.size.toNat + data.length ≤ cap.toNat := fun hroom =>
              hno (.inr (.inr (.inr hroom)))
            by_cases hfirst : b.mem.take b.size.toNat = [] ∨ b.size.toNat ≤ cap.toNat
            · have hsize : b.size.toNat ≤ cap.toNat := by
                rcases hfirst with hnil | hle
                · rw [hnil] at hlen
                  rw [← hlen]
                  exact Nat.zero_le _
                · exact hle
              have hgrown := h.grown hopen base hsize hpages
              rw [poke_eq (.inr ⟨rfl, by rw [hlen, List.length_replicate]; omega⟩), Option.map_some, Option.bind_some]
              dsimp only
              rw [if_pos rfl, poke_none, Option.map_none]
              rintro (hnil | ⟨-, hroom⟩)
              · rw [hnil] at hsmall
                exact hsmall hsize
              · rw [hgrown.mem] at hroom
                exact hsmall hroom
            · rw [poke_none, Option.map_none, Option.bind_none]
              rintro (hnil | ⟨-, hroom⟩)
              · exact hfirst (.inl hnil)
              · rw [hlen, List.length_replicate] at hroom
                exact hfirst (.inr (by omega))

theorem wordBytes_ne_nil {n : Nat} {w : UInt64} : wordBytes (n + 1) w ≠ [] :=
  List.ne_nil_of_length_pos (by rw [length_wordBytes]; exact Nat.succ_pos n)

theorem patch_iff (h : Ready page b image) (op : Op) (off : UInt64) {data : List UInt8} (hdata : data ≠ [])
    (hop : intended image op = splice image off.toNat (data.map .byte)) :
    (PatchMeets b off data.length → Keeps page image op (jcbPatch b off data)) ∧
      (¬ PatchMeets b off data.length → jcbPatch b off data = none) := by
  unfold jcbPatch PatchMeets
  by_cases hrefused : off + UInt64.ofNat data.length > b.size
  · rw [if_pos hrefused]
    exact ⟨fun _ => keeps_fail h.toPlaced, fun hno => absurd (.inl hrefused) hno⟩
  · rw [if_neg hrefused]
    constructor
    · intro hm
      obtain ⟨hw, hoff⟩ := hm.resolve_left hrefused
      have hsize := h.size
      rw [poke_eq (.inr ⟨hw, by rw [h.mem]; omega⟩)]
      refine ⟨_, _, rfl, good_wrote hoff, ?_⟩
      rw [hop]
      refine h.patched (List.length_map _) hoff (fun image hin => resolve_splice_bytes hin) fun j target i hj => ?_
      rw [List.getElem?_map, Option.map_eq_some_iff] at hj
      obtain ⟨v, -, hv⟩ := hj
      cases hv
    · intro hno
      rw [poke_none, Option.map_none]
      rintro (hnil | ⟨hw, hroom⟩)
      · exact hdata hnil
      · -- inside the mapping the sum does not wrap, and it is not above the size
        rw [h.mem] at hroom
        have hlt := b.cap.toNat_lt
        rw [gt_iff_lt, UInt64.lt_iff_toNat_lt, UInt64.toNat_add, UInt64.toNat_ofNat'] at hrefused
        exact hno (.inr ⟨hw, by omega⟩)

theorem patchRel32_iff (h : Ready page b image) (off target : UInt64) :
    (Meets page b (.patchRel32 off target) → Keeps page image (.patchRel32 off target) (jcbPatchRel32 b off target)) ∧
      (¬ Meets page b (.patchRel32 off target) → jcbPatchRel32 b off target = none) := by
  unfold jcbPatchRel32 Meets
  dsimp only
  by_cases hseal : b.isSealed = false
  · rw [if_pos hseal]
    exact ⟨fun _ => keeps_fail h.toPlaced, fun hno => absurd (.inl hseal) hno⟩
  · rw [if_neg hseal]
    by_cases hrefused : off + 4 > b.size
    · rw [if_pos hrefused]
      exact ⟨fun _ => keeps_fail h.toPlaced, fun hno => absurd (.inr (.inl hrefused)) hno⟩
    · rw [if_neg hrefused]
      have hsize := h.size
      by_cases hout : b.mem.length < off.toNat + 4
      · rw [if_pos hout]
        refine ⟨fun hm => ?_, fun _ => rfl⟩
        rcases hm with hm | hm | ⟨hoff, -⟩
        · exact absurd hm hseal
        · exact absurd hm hrefused
        · rw [h.mem] at hout
          omega
      · rw [if_neg hout]
        rw [h.mem] at hout
        have hoff : off.toNat + 4 ≤ b.size.toNat := by
          have hlt := b.cap.toNat_lt
          rw [gt_iff_lt, UInt64.lt_iff_toNat_lt, UInt64.toNat_add] at hrefused
          have h4 : (4 : UInt64).toNat = 4 := rfl
          omega
        by_cases hmeas : Measurable b.base off.toNat target
        · rw [if_neg (not_not.mpr hmeas)]
          by_cases hnear : Near b.base off.toNat target
          · rw [if_neg (not_not.mpr hnear)]
            constructor
            · intro hm
              have hw : b.writable = true := by
                rcases hm with hm | hm | ⟨-, -, hw⟩
                · exact absurd hm hseal
                · exact absurd hm hrefused
                · exact hw hnear
              rw [poke_eq (.inr ⟨hw, by rw [h.mem, length_relBytes]; omega⟩)]
              refine ⟨_, _, rfl, good_wrote hoff, ?_⟩
              refine h.patched (by rw [length_relCells, length_relBytes]) (by rw [length_relBytes]; exact hoff)
                (fun image hin => resolve_splice_rel (by rw [length_relBytes] at hin; exact hin)) fun j target' i hj => ?_
              have hj4 : j < 4 := by
                have hlt := (List.getElem?_eq_some_iff.mp hj).1
                rw [length_relCells] at hlt
                exact hlt
              rw [getElem?_relCells hj4] at hj
              cases hj
              refine ⟨eq_true_of_ne_false hseal, ?_⟩
              rw [Nat.add_sub_cancel]
              exact hnear
            · intro hno
              rw [poke_none, Option.map_none]
              rintro (hnil | ⟨hw, -⟩)
              · have hlen : (relBytes b.base off.toNat target).length = 4 := length_relBytes
                rw [hnil] at hlen
                cases hlen
              · exact hno (.inr (.inr ⟨hoff, hmeas, fun _ => hw⟩))
          · rw [if_pos hnear]
            exact ⟨fun _ => keeps_fail h.toPlaced, fun hno => absurd (.inr (.inr ⟨hoff, hmeas, fun hn => absurd hn hnear⟩)) hno⟩
        · rw [if_pos hmeas]
          refine ⟨fun hm => ?_, fun _ => rfl⟩
          rcases hm with hm | hm | ⟨-, hm, -⟩
          · exact absurd hm hseal
          · exact absurd hm hrefused
          · exact absurd hm hmeas

/-! ## Finalizing -/

theorem signed64_eq (n : Nat) : ∃ q : Int, signed64 n = n - 2 ^ 64 * q := ⟨_, Int.bmod_eq_self_sub_mul_bdiv _ _⟩

/-- A displacement that fits its field is read back from it. -/
theorem signExtend_relBytes {base off : Nat} {target : UInt64} (hn : Near base off target) :
    signExtend 4 (leNat (relBytes base off target)) = displacement base off target := by
  obtain ⟨hlow, hhigh⟩ := hn
  have hword : (UInt64.ofInt (displacement base off target)).toNat = (displacement base off target % 2 ^ 64).toNat := by
    rw [UInt64.ofInt, UInt64.toNat_ofNat']
    omega
  have hmod : ((leNat (relBytes base off target) : Nat) : Int) = displacement base off target % 2 ^ 32 := by
    rw [relBytes, leNat_wordBytes (by omega), hword]
    omega
  rw [signExtend, hmod, show (2 ^ 32 : Int) = ((2 ^ (8 * 4) : Nat) : Int) from rfl, Int.emod_bmod]
  exact Int.bmod_eq_of_le (by omega) (by omega)

/-- The field at `off` reaches its target when it is all there. -/
theorem Faithful.reaches (h : Faithful b image) {off : Nat} {target : UInt64} (hf : IsField image off target) :
    Reaches b.base b.mem off target := by
  have hlt : off + 3 < image.length := (List.getElem?_eq_some_iff.mp (hf 3 (by omega))).1
  have hnear := h.near (off + 0) target 0 (hf 0 (by omega))
  rw [Nat.add_zero, Nat.sub_zero] at hnear
  have hbytes : bytesAt b.mem off 4 = relBytes b.base off target := by
    refine List.ext_getElem? fun i => ?_
    by_cases hi : i < 4
    · have hin : off + i < b.size.toNat := by
        rw [h.size]
        omega
      rw [bytesAt, List.getElem?_take_of_lt hi, List.getElem?_drop, ← List.getElem?_take_of_lt hin, h.bytes,
        getElem?_resolve, hf i hi, Option.map_some, Cell.resolve, Nat.add_sub_cancel, List.getD_eq_getElem?_getD,
        List.getElem?_eq_getElem (by rw [length_relBytes]; exact hi), Option.getD_some]
    · rw [List.getElem?_eq_none (by rw [bytesAt, List.length_take]; omega),
        List.getElem?_eq_none (by rw [length_relBytes]; omega)]
  obtain ⟨q, hq⟩ := signed64_eq target.toNat
  obtain ⟨q', hq'⟩ := signed64_eq (b.base + off)
  have hlt64 := target.toNat_lt
  rw [Reaches, hbytes, signExtend_relBytes hnear, displacement, fieldEnd, hq, hq']
  omega

theorem Ready.delivered (h : Ready page b image) (hok : b.failed = false) : Delivered b.base b image where
  base := rfl
  size := (h.faithful hok).size
  bytes := (h.faithful hok).bytes
  fields := fun _ _ hf => (h.faithful hok).reaches hf

/-- Giving back the tail keeps the code. -/
theorem Ready.trimmed (h : Ready page b image) (munmap : Bool) : Ready page (trim page b munmap) image ∧
    (trim page b munmap).failed = b.failed ∧ (trim page b munmap).base = b.base := by
  unfold trim
  dsimp only
  split
  · next hused =>
    have hle := le_pageAlign h.size h.pages
    have hlt := UInt64.lt_iff_toNat_lt.mp hused.1
    refine ⟨⟨⟨?_, hle, dvd_pageAlign page _⟩, fun hok => ?_⟩, rfl, rfl⟩
    · rw [List.length_take, h.mem]
      exact Nat.min_eq_left (le_of_lt hlt)
    · have hf := h.faithful hok
      refine ⟨hf.size, ?_, hf.unsealed, hf.near⟩
      rw [← hf.bytes, List.take_take, Nat.min_eq_left hle]
  · exact ⟨h, rfl, rfl⟩

theorem finalize_keeps (h : Ready page b image) {munmap mprotect : Bool}
    (hm : Meets page b (.finalize munmap mprotect)) :
    Keeps page image (.finalize munmap mprotect) (some (jcbFinalize page b munmap mprotect)) := by
  suffices hkept : Good image (.finalize munmap mprotect) (jcbFinalize page b munmap mprotect).1
      (jcbFinalize page b munmap mprotect).2 ∧ Ready page (jcbFinalize page b munmap mprotect).1 image from
    ⟨_, _, rfl, hkept⟩
  unfold jcbFinalize
  by_cases hfailed : b.failed = true
  · rw [if_pos hfailed]
    exact ⟨⟨fun _ => hfailed, nofun, nofun⟩, h⟩
  · have hok : b.failed = false := eq_false_of_ne_true hfailed
    rw [if_neg hfailed]
    by_cases hfin : b.finalized = true
    · rw [if_pos hfin]
      refine ⟨⟨nofun, nofun, fun p hp => ?_⟩, h⟩
      obtain rfl := Option.some.inj hp
      exact h.delivered hok
    · rw [if_neg hfin]
      by_cases hempty : b.size = 0
      · rw [if_pos hempty]
        exact ⟨good_fail b, Ready.failed h.toPlaced⟩
      · have hprotect : mprotect = true := by
          rcases hm with hm | hm | hm | hm
          · exact absurd hm hfailed
          · exact absurd hm hfin
          · exact absurd hm hempty
          · exact hm
        obtain ⟨ht, htfailed, htbase⟩ := h.trimmed munmap
        rw [if_neg hempty]
        dsimp only
        rw [if_pos hprotect]
        have hf := ht.faithful (htfailed.trans hok)
        have hready : Ready page { trim page b munmap with finalized := true, isSealed := true, writable := false } image :=
          ⟨⟨ht.mem, ht.size, ht.pages⟩, fun _ => ⟨hf.size, hf.bytes, nofun, hf.near⟩⟩
        refine ⟨⟨nofun, nofun, fun p hp => ?_⟩, hready⟩
        obtain rfl := Option.some.inj hp
        exact hready.delivered (htfailed.trans hok)

/-- A finalize that the system refuses is not recorded. -/
theorem finalize_unmarked {munmap mprotect : Bool} (hm : ¬ Meets page b (.finalize munmap mprotect)) :
    ¬ Good image (.finalize munmap mprotect) (jcbFinalize page b munmap mprotect).1
      (jcbFinalize page b munmap mprotect).2 := by
  intro hgood
  unfold Meets at hm
  rw [not_or, not_or, not_or] at hm
  obtain ⟨hfailed, hfin, hempty, hprotect⟩ := hm
  unfold jcbFinalize at hgood
  rw [if_neg hfailed, if_neg hfin, if_neg hempty] at hgood
  dsimp only at hgood
  rw [if_neg hprotect] at hgood
  have hmarked := hgood.refused rfl
  unfold trim at hmarked
  dsimp only at hmarked
  split at hmarked
  · exact hfailed hmarked
  · exact hfailed hmarked

/-! ## Runs -/

theorem reset_keeps (h : Ready page b image) : Keeps page image .reset (some (jcbReset b, .done)) := by
  refine ⟨_, _, rfl, good_done, ⟨h.mem, Nat.zero_le _, h.pages⟩, fun _ => ⟨rfl, ?_, fun _ k target i hk => ?_, fun k target i hk => ?_⟩⟩
  · change b.mem.take 0 = _
    rw [List.take_zero]
    rfl
  · cases hk
  · cases hk

theorem seal_keeps (h : Ready page b image) : Keeps page image .sealBuf (some (jcbSeal b, .done)) := by
  refine ⟨_, _, rfl, good_done, ⟨h.mem, h.size, h.pages⟩, fun hok => ?_⟩
  have hf := h.faithful hok
  exact ⟨hf.size, hf.bytes, nofun, hf.near⟩

/-- **One call that meets the condition.** -/
theorem step_good (h : Ready page b image) (hm : Meets page b op) : Keeps page image op (step page b op) := by
  cases op with
  | emit data map => exact (emit_iff h data map).1 hm
  | patch32 off v => exact (patch_iff h (.patch32 off v) off wordBytes_ne_nil rfl).1 hm
  | patch64 off v => exact (patch_iff h (.patch64 off v) off wordBytes_ne_nil rfl).1 hm
  | patchRel32 off target => exact (patchRel32_iff h off target).1 hm
  | sealBuf => exact seal_keeps h
  | reset => exact reset_keeps h
  | finalize munmap mprotect => exact finalize_keeps h hm

/-- **One call that does not.** -/
theorem step_bad (h : Ready page b image) (hm : ¬ Meets page b op) :
    ∀ b' eff, step page b op = some (b', eff) → ¬ Good image op b' eff := by
  intro b' eff hstep
  have hundefined : step page b op = none → ¬ Good image op b' eff := fun hnone => by
    rw [hnone] at hstep
    cases hstep
  cases op with
  | emit data map => exact hundefined ((emit_iff h data map).2 hm)
  | patch32 off v => exact hundefined ((patch_iff h (.patch32 off v) off wordBytes_ne_nil rfl).2 hm)
  | patch64 off v => exact hundefined ((patch_iff h (.patch64 off v) off wordBytes_ne_nil rfl).2 hm)
  | patchRel32 off target => exact hundefined ((patchRel32_iff h off target).2 hm)
  | sealBuf => exact absurd trivial hm
  | reset => exact absurd trivial hm
  | finalize munmap mprotect =>
    obtain ⟨rfl, rfl⟩ := Prod.mk.inj (Option.some.inj hstep)
    exact finalize_unmarked hm

theorem run_iff (h : Ready page b image) (ops : List Op) : AllGood page b image ops ↔ AllMeet page b ops := by
  induction ops generalizing b image with
  | nil => exact Iff.rfl
  | cons op ops ih =>
    unfold AllGood AllMeet
    constructor
    · intro hgood
      by_cases hm : Meets page b op
      · obtain ⟨b', eff, hstep, -, hready⟩ := step_good h hm
        rw [hstep] at hgood ⊢
        exact ⟨hm, (ih hready).mp hgood.2⟩
      · cases hstep : step page b op with
        | none =>
          rw [hstep] at hgood
          exact hgood.elim
        | some r =>
          obtain ⟨b', eff⟩ := r
          rw [hstep] at hgood
          exact absurd hgood.1 (step_bad h hm b' eff hstep)
    · rintro ⟨hm, hrest⟩
      obtain ⟨b', eff, hstep, hgood, hready⟩ := step_good h hm
      rw [hstep] at hrest ⊢
      exact ⟨hgood, (ih hready).mpr hrest⟩

theorem init_ready {n : UInt64} {map : Option Nat} (h : jcbInit page n map = some b) : Ready page b [] := by
  unfold jcbInit at h
  obtain ⟨base, -, rfl⟩ := Option.map_eq_some_iff.mp h
  refine ⟨⟨List.length_replicate, Nat.zero_le _, dvd_pageAlign page _⟩,
    fun _ => ⟨rfl, ?_, fun _ k target i hk => ?_, fun k target i hk => ?_⟩⟩
  · change List.take 0 _ = _
    rw [List.take_zero]
    rfl
  · cases hk
  · cases hk

/-- **A run from a successful init does what it must at every call exactly where every call meets the
condition.** -/
theorem phases_iff (page : Page) (n : UInt64) (map : Option Nat) (b : CodeBuf) (h : jcbInit page n map = some b)
    (ops : List Op) : AllGood page b [] ops ↔ AllMeet page b ops :=
  run_iff (init_ready h) ops

/-- Pages of 16 bytes. -/
def smallPage : Page := ⟨16, 4, by decide, rfl⟩

def smallBuf : CodeBuf :=
  { base := 4096, cap := 16, size := 0, finalized := false, isSealed := false, failed := false
    mem := List.replicate 16 0, writable := true }

/-- A stencil, one that makes the buffer move, the seal, a displacement, the end. -/
def smallRun : List Op :=
  [.emit [1, 2, 3, 4, 5, 6, 7, 8] none, .emit (List.replicate 12 9) (some 65536), .sealBuf, .patchRel32 4 65552,
    .finalize true true]

theorem phases_iff_small : AllMeet smallPage smallBuf smallRun ∧ AllGood smallPage smallBuf [] smallRun := by
  have hmeet : AllMeet smallPage smallBuf smallRun := by decide +kernel
  exact ⟨hmeet, (phases_iff smallPage 1 (some 4096) smallBuf rfl smallRun).mpr hmeet⟩

/-- A sum that wraps, a patch of code that runs, code emitted again into pages that are executable, and an
`mprotect` that fails. -/
theorem phases_broken : jcbInit smallPage 1 (some 4096) = some smallBuf ∧
    ¬ AllGood smallPage smallBuf [] [.emit [1] none, .patch32 18446744073709551612 7] ∧
    ¬ AllGood smallPage smallBuf [] [.emit [1, 2, 3, 4] none, .finalize true true, .patch32 0 7] ∧
    ¬ AllGood smallPage smallBuf [] [.emit [1] none, .finalize true true, .reset, .emit [2] none] ∧
    ¬ AllGood smallPage smallBuf [] [.emit [1] none, .finalize true false] := by
  refine ⟨rfl, ?_, ?_, ?_, ?_⟩
  · exact fun h => h.2
  · exact fun h => h.2.2
  · exact fun h => h.2.2.2
  · exact fun h => absurd (h.2.1.refused rfl) (by decide)

end Bbq.Codebuf
