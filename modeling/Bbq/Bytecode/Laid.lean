import Bbq.Bytecode.Layout
import Bbq.Lib.Chunks
import Bbq.Lib.Splice

/-!
# An emitter and its layout

`Laid e l`: the bytes, labels and branches of `e` are those of the items and keys of `l`, with placeholders for the
targets. To remove bytes moves what lies behind them, and leaves a layout if they are a branch, or all but its opcode
(`Laid.elide`, `Laid.merge`).
-/

namespace Bbq.Bytecode

open Bbq.Lib

variable {κ : Type}

def placeholder : List UInt8 := List.replicate branchWidth 0x80

/-- The target of a branch is `hole`. -/
def Item.bytes (hole : List UInt8) : Item κ → List UInt8
  | plain o args => o :: args
  | branch o _ args => o :: (hole ++ args)

theorem Item.bytes_eq (hole : List UInt8) (item : Item κ) : ∃ rest, item.bytes hole = item.opcode :: rest := by
  cases item with
  | plain o args => exact ⟨_, rfl⟩
  | branch o key args => exact ⟨_, rfl⟩

namespace Layout

def chunks (l : Layout κ) : List (List UInt8) := l.items.map (Item.bytes placeholder)

/-- Where an item begins. -/
def start (l : Layout κ) (i : Nat) : Nat := Chunks.start l.chunks i

variable {l : Layout κ} {i j : Nat} {item : Item κ}

theorem chunk (h : l.items[i]? = some item) : l.chunks[i]? = some (item.bytes placeholder) := by
  unfold chunks
  rw [List.getElem?_map, h, Option.map_some]

theorem chunks_length (l : Layout κ) : l.chunks.length = l.items.length := List.length_map _

theorem chunks_ne (l : Layout κ) : ∀ c ∈ l.chunks, c ≠ [] := by
  intro c hc
  obtain ⟨item, -, rfl⟩ := List.mem_map.mp hc
  obtain ⟨rest, hrest⟩ := item.bytes_eq placeholder
  rw [hrest]
  exact List.cons_ne_nil _ _

theorem start_zero (l : Layout κ) : l.start 0 = 0 := rfl

theorem start_succ (h : l.items[i]? = some item) : l.start (i + 1) = l.start i + (item.bytes placeholder).length :=
  Chunks.start_succ (chunk h)

theorem start_le (l : Layout κ) (h : i ≤ j) : l.start i ≤ l.start j := Chunks.start_le h

theorem start_inj (hi : i ≤ l.items.length) (hj : j ≤ l.items.length) : l.start i = l.start j ↔ i = j :=
  Chunks.start_inj l.chunks_ne (by rwa [chunks_length]) (by rwa [chunks_length])

theorem lt_length (h : l.items[i]? = some item) : i < l.items.length := (List.getElem?_eq_some_iff.mp h).1

theorem drop_start (h : l.items[i]? = some item) :
    l.chunks.flatten.drop (l.start i) = item.bytes placeholder ++ (l.chunks.drop (i + 1)).flatten :=
  Chunks.drop_start (chunk h)

/-- At the start of an item is its opcode, and behind the last one nothing. -/
theorem code_start (hi : i ≤ l.items.length) : l.chunks.flatten[l.start i]? = (l.items[i]?).map Item.opcode := by
  cases h : l.items[i]? with
  | none =>
    have hlen : l.items.length ≤ i := List.getElem?_eq_none_iff.mp h
    obtain rfl : i = l.chunks.length := by rw [chunks_length]; omega
    rw [start, Chunks.start_length, List.getElem?_eq_none (Nat.le_refl _)]
    rfl
  | some item =>
    have hdrop := congrArg (fun bs => bs[0]?) (drop_start h)
    obtain ⟨rest, hrest⟩ := item.bytes_eq placeholder
    rw [List.getElem?_drop, Nat.add_zero, hrest] at hdrop
    exact hdrop

theorem chunks_set (l : Layout κ) (i : Nat) (item : Item κ) :
    (l.set i item).chunks = l.chunks.set i (item.bytes placeholder) := List.map_set ..

theorem chunks_erase (l : Layout κ) (i : Nat) : (l.erase i).chunks = l.chunks.eraseIdx i := by
  unfold chunks erase
  rw [List.eraseIdx_eq_take_drop_succ, List.eraseIdx_eq_take_drop_succ, List.map_append, List.map_take, List.map_drop]

end Layout

/-- A branch in the place of a branch, with the same operands. -/
theorem Layout.start_set_branch {l : Layout κ} {i : Nat} {o : UInt8} {key : κ} {args : List UInt8}
    (hi : l.items[i]? = some (.branch o key args)) (o' : UInt8) (key' : κ) (x : Nat) :
    (l.set i (.branch o' key' args)).start x = l.start x := by
  unfold Layout.start
  rw [Layout.chunks_set]
  by_cases hx : x ≤ i
  · exact Chunks.start_set_le _ hx
  · exact Nat.add_right_cancel (Chunks.start_set_gt (Layout.chunk hi) _ (by omega))

structure Laid (e : Emit κ) (l : Layout κ) : Prop where
  code : e.code = l.chunks.flatten
  placed : ∀ {key : κ} {i : Nat}, l.place key = some i → i ≤ l.items.length
  labels : ∀ key, e.labels key = (l.place key).map l.start
  /-- A live branch is one of the layout. -/
  live : ∀ {n : Nat} {f : Fixup κ}, e.fixups[n]? = some f → f.dead = false →
    ∃ i o args, l.items[i]? = some (Item.branch o f.target args) ∧ f.pos = l.start i + 1
  covered : ∀ {i : Nat} {o key args}, l.items[i]? = some (Item.branch o key args) →
    ∃ n : Nat, e.fixups[n]? = some ⟨l.start i + 1, key, false⟩
  distinct : ∀ {n n' : Nat} {f f' : Fixup κ}, e.fixups[n]? = some f → e.fixups[n']? = some f' → f.dead = false →
    f'.dead = false → f.pos = f'.pos → n = n'

namespace Laid

variable {e : Emit κ} {l : Layout κ} {n i : Nat} {f : Fixup κ} {o : UInt8} {key : κ} {args : List UInt8}

theorem code_start (h : Laid e l) (hi : i ≤ l.items.length) : e.code[l.start i]? = (l.items[i]?).map Item.opcode := by
  rw [h.code]
  exact Layout.code_start hi

/-- The opcode a turn of a pass reads. -/
theorem opcode (h : Laid e l) (hi : l.items[i]? = some (.branch o key args)) (hpos : f.pos = l.start i + 1) :
    e.code.getD (f.pos - 1) 0 = o := by
  rw [hpos, Nat.add_sub_cancel, List.getD_eq_getElem?_getD, h.code_start (Nat.le_of_lt (Layout.lt_length hi)), hi]
  rfl

/-- The live branch at an item. -/
theorem item_eq (h : Laid e l) (hf : e.fixups[n]? = some f) (hlive : f.dead = false) (hi : i ≤ l.items.length)
    (hpos : f.pos = l.start i + 1) : ∃ o args, l.items[i]? = some (.branch o f.target args) := by
  obtain ⟨i', o, args, hi', hpos'⟩ := h.live hf hlive
  have hstart : l.start i = l.start i' := by omega
  obtain rfl := (Layout.start_inj hi (Nat.le_of_lt (Layout.lt_length hi'))).mp hstart
  exact ⟨o, args, hi'⟩

/-- The opcode is written over itself. -/
theorem set_opcode (h : Laid e l) (hi : l.items[i]? = some (.branch o key args)) (hpos : f.pos = l.start i + 1) :
    e.code.set (f.pos - 1) o = e.code := by
  have hcode := h.code_start (Nat.le_of_lt (Layout.lt_length hi))
  rw [hi, Option.map_some] at hcode
  obtain ⟨hlt, hget⟩ := List.getElem?_eq_some_iff.mp hcode
  have ho : e.code[l.start i] = o := hget
  rw [hpos, Nat.add_sub_cancel, ← ho, List.set_getElem_self]

/-! ## The index -/

theorem of_fixupIndex {pos : Nat} (h : e.fixupIndex pos = some n) :
    ∃ f, e.fixups[n]? = some f ∧ f.dead = false ∧ f.pos = pos := by
  have hmem := List.mem_of_getLast? h
  rw [List.mem_filter] at hmem
  cases hf : e.fixups[n]? with
  | none =>
    rw [hf] at hmem
    exact absurd hmem.2 (by simp)
  | some f =>
    rw [hf] at hmem
    have hand : f.dead = false ∧ f.pos = pos := by simpa using hmem.2
    exact ⟨f, rfl, hand.1, hand.2⟩

theorem fixupIndex_eq (h : Laid e l) (hf : e.fixups[n]? = some f) (hlive : f.dead = false) :
    e.fixupIndex f.pos = some n := by
  have hmem : n ∈ (List.range e.fixups.length).filter
      fun i => e.fixups[i]?.any fun g => !g.dead && g.pos == f.pos := by
    rw [List.mem_filter, List.mem_range, hf]
    exact ⟨(List.getElem?_eq_some_iff.mp hf).1, by simp [hlive]⟩
  cases hidx : e.fixupIndex f.pos with
  | none => exact absurd (List.getLast?_eq_none_iff.mp hidx) (List.ne_nil_of_mem hmem)
  | some n' =>
    obtain ⟨g, hg, hglive, hgpos⟩ := of_fixupIndex hidx
    rw [h.distinct hg hf hglive hlive hgpos]

/-! ## Changes -/

/-- A branch may go elsewhere. -/
theorem retarget (h : Laid e l) (hf : e.fixups[n]? = some f) (hlive : f.dead = false)
    (hi : l.items[i]? = some (.branch o f.target args)) (hpos : f.pos = l.start i + 1) (o' : UInt8) (key : κ) :
    Laid { e with code := e.code.set (f.pos - 1) o', fixups := e.fixups.set n { f with target := key } }
      (l.set i (.branch o' key args)) := by
  have hlt := Layout.lt_length hi
  have hn := (List.getElem?_eq_some_iff.mp hf).1
  have hchunk := Layout.chunk hi
  have hbytes : (Item.branch o' key args).bytes placeholder = o' :: (placeholder ++ args) := rfl
  have hstart := Layout.start_set_branch hi o' key
  have hfixup : ∀ k, (e.fixups.set n { f with target := key })[k]? =
      if k = n then some { f with target := key } else e.fixups[k]? := fun k => by
    by_cases hk : k = n
    · subst hk
      rw [if_pos rfl, List.getElem?_set_self hn]
    · rw [if_neg hk, List.getElem?_set_ne (Ne.symm hk)]
  refine ⟨?_, fun {k x} hk => ?_, fun k => ?_, fun {k g} hg hglive => ?_, fun {x r k as} hx => ?_,
    fun {k k' g g'} hg hg' hglive hglive' hsame => ?_⟩
  · dsimp only
    rw [Layout.chunks_set, Chunks.flatten_set hchunk, h.code, hpos, Nat.add_sub_cancel, hbytes]
    have hdrop := Layout.drop_start hi
    have htail : l.chunks.flatten.drop (l.start i + 1) =
        placeholder ++ args ++ l.chunks.flatten.drop (l.start i + (o :: (placeholder ++ args)).length) := by
      rw [← List.drop_drop, ← List.drop_drop, hdrop]
      exact (congrArg (placeholder ++ args ++ ·) List.drop_left).symm
    have hlen : l.start i < l.chunks.flatten.length := by
      have := congrArg List.length hdrop
      rw [List.length_drop, List.length_append] at this
      have hone : (Item.bytes placeholder (Item.branch o f.target args)).length = (placeholder ++ args).length + 1 := rfl
      omega
    rw [List.set_eq_take_append_cons_drop, if_pos hlen, htail]
    rfl
  · rw [Layout.set, List.length_set]
    exact h.placed hk
  · change e.labels k = (l.place k).map _
    rw [h.labels, funext hstart]
  · rw [hfixup] at hg
    by_cases hk : k = n
    · subst hk
      rw [if_pos rfl] at hg
      obtain rfl := Option.some.inj hg
      exact ⟨i, o', args, by rw [Layout.items_set hi, if_pos rfl], by rw [hstart]; exact hpos⟩
    · rw [if_neg hk] at hg
      obtain ⟨x, r, as, hx, hgpos⟩ := h.live hg hglive
      have hxi : x ≠ i := by
        rintro rfl
        exact hk (h.distinct hg hf hglive hlive (hgpos.trans hpos.symm))
      exact ⟨x, r, as, by rw [Layout.items_set hi, if_neg hxi, hx], by rw [hstart]; exact hgpos⟩
  · rw [Layout.items_set hi] at hx
    by_cases hxi : x = i
    · subst hxi
      rw [if_pos rfl] at hx
      cases hx
      refine ⟨n, ?_⟩
      rw [hfixup, if_pos rfl, hstart, ← hpos, ← hlive]
    · rw [if_neg hxi] at hx
      obtain ⟨k', hk'⟩ := h.covered hx
      refine ⟨k', ?_⟩
      have hne : k' ≠ n := by
        rintro rfl
        rw [hf] at hk'
        obtain rfl := Option.some.inj hk'
        have hstart' : l.start x = l.start i := Nat.add_right_cancel hpos
        exact hxi ((Layout.start_inj (Nat.le_of_lt (Layout.lt_length hx)) (Nat.le_of_lt hlt)).mp hstart')
      rw [hfixup, if_neg hne, hstart, hk']
  · have hold : ∀ (k : Nat) (g : Fixup κ), (e.fixups.set n { f with target := key })[k]? = some g → g.dead = false →
        ∃ g₀, e.fixups[k]? = some g₀ ∧ g₀.dead = false ∧ g₀.pos = g.pos := fun k g hg hglive => by
      rw [hfixup] at hg
      by_cases hk : k = n
      · subst hk
        rw [if_pos rfl] at hg
        obtain rfl := Option.some.inj hg
        exact ⟨f, hf, hlive, rfl⟩
      · rw [if_neg hk] at hg
        exact ⟨g, hg, hglive, rfl⟩
    obtain ⟨g₀, hg₀, hl₀, hp₀⟩ := hold k g hg hglive
    obtain ⟨g₁, hg₁, hl₁, hp₁⟩ := hold k' g' hg' hglive'
    exact h.distinct hg₀ hg₁ hl₀ hl₁ (by omega)

/-! ## Removal of bytes -/

/-- A branch when bytes are removed. -/
def moved (at_ len : Nat) (f : Fixup κ) : Fixup κ :=
  if !f.dead && decide (at_ < f.pos) then { f with pos := f.pos - len } else f

theorem moved_eq (at_ len : Nat) (hlive : f.dead = false) :
    moved at_ len f = ⟨if at_ < f.pos then f.pos - len else f.pos, f.target, false⟩ := by
  unfold moved
  rw [hlive, Bool.not_false, Bool.true_and]
  by_cases hlt : at_ < f.pos
  · rw [if_pos (decide_eq_true hlt), if_pos hlt]
  · rw [if_neg (by simpa using hlt), if_neg hlt, ← hlive]

theorem moved_dead (at_ len : Nat) (f : Fixup κ) : (moved at_ len f).dead = f.dead := by
  unfold moved
  split <;> rfl

/-- A live branch after the removal is one from before, moved, and not the one that is dead now. -/
theorem of_cut {at_ len k : Nat} {g' : Fixup κ} (hg : ((e.removeBytes at_ len).kill n).fixups[k]? = some g')
    (hlive : g'.dead = false) :
    ∃ g, e.fixups[k]? = some g ∧ g.dead = false ∧ k ≠ n ∧
      g' = ⟨if at_ < g.pos then g.pos - len else g.pos, g.target, false⟩ := by
  change ((e.fixups.map (moved at_ len)).modify n fun f => { f with dead := true })[k]? = some g' at hg
  rw [List.getElem?_modify, List.getElem?_map] at hg
  obtain ⟨a, ha, rfl⟩ := Option.map_eq_some_iff.mp hg
  obtain ⟨g, hgk, rfl⟩ := Option.map_eq_some_iff.mp ha
  by_cases hk : n = k
  · rw [if_pos hk] at hlive
    cases hlive
  · rw [if_neg hk] at hlive ⊢
    change (moved at_ len g).dead = false at hlive
    rw [moved_dead] at hlive
    exact ⟨g, hgk, hlive, fun h => hk h.symm, moved_eq at_ len hlive⟩

theorem cut_fixup {at_ len k : Nat} {g : Fixup κ} (hg : e.fixups[k]? = some g) (hlive : g.dead = false) (hk : k ≠ n) :
    ((e.removeBytes at_ len).kill n).fixups[k]? =
      some ⟨if at_ < g.pos then g.pos - len else g.pos, g.target, false⟩ := by
  change ((e.fixups.map (moved at_ len)).modify n fun f => { f with dead := true })[k]? = _
  rw [List.getElem?_modify, List.getElem?_map, hg, Option.map_some, moved_eq at_ len hlive]
  exact congrArg some (if_neg (Ne.symm hk))

/-- Bytes are removed, and item `i` with them or changed, so that no branch is left there. -/
theorem cut (h : Laid e l) (hf : e.fixups[n]? = some f) (hlive : f.dead = false)
    (hi : l.items[i]? = some (.branch o f.target args)) (hpos : f.pos = l.start i + 1) (code : List UInt8)
    {at_ len : Nat} (hlen : 0 < len) {l' : Layout κ} (number : Nat → Nat)
    (hcode : code.take at_ ++ code.drop (at_ + len) = l'.chunks.flatten)
    (hplace : ∀ key, l'.place key = (l.place key).map number)
    (hplaced : ∀ x, x ≤ l.items.length → number x ≤ l'.items.length)
    (hitems : ∀ x, x ≠ i → l'.items[number x]? = l.items[x]?)
    (hback : ∀ (y : Nat) r k as, l'.items[y]? = some (Item.branch r k as) → ∃ x, x ≠ i ∧ number x = y)
    (hstart : ∀ x, x ≤ l.items.length → l'.start (number x) = if at_ < l.start x then l.start x - len else l.start x)
    (hapart : ∀ x, x < l.items.length → x ≠ i → l.start x < at_ ∨ at_ + len ≤ l.start x) :
    Laid ((({ e with code := code } : Emit κ).removeBytes at_ len).kill n) l' := by
  -- the other live branches are at other items, before the gap or behind it
  have hitem : ∀ (k : Nat) (g : Fixup κ), e.fixups[k]? = some g → g.dead = false → k ≠ n →
      ∃ x r as, l.items[x]? = some (Item.branch r g.target as) ∧ g.pos = l.start x + 1 ∧ x ≠ i ∧
        (l.start x < at_ ∨ at_ + len ≤ l.start x) := fun k g hg hglive hk => by
    obtain ⟨x, r, as, hx, hgpos⟩ := h.live hg hglive
    have hxi : x ≠ i := by
      rintro rfl
      exact hk (h.distinct hg hf hglive hlive (hgpos.trans hpos.symm))
    exact ⟨x, r, as, hx, hgpos, hxi, hapart x (Layout.lt_length hx) hxi⟩
  have hmoved : ∀ x, x < l.items.length → (l.start x < at_ ∨ at_ + len ≤ l.start x) →
      l'.start (number x) + 1 = if at_ < l.start x + 1 then l.start x + 1 - len else l.start x + 1 :=
    fun x hx hap => by
      rw [hstart x (Nat.le_of_lt hx)]
      by_cases hlt : at_ < l.start x
      · rw [if_pos hlt, if_pos (by omega)]
        omega
      · rw [if_neg hlt, if_neg (by omega)]
  refine ⟨hcode, fun {k x} hk => ?_, fun k => ?_, fun {k g} hg hglive => ?_, fun {y r k as} hy => ?_,
    fun {k k' g g'} hg hg' hglive hglive' hsame => ?_⟩
  · rw [hplace] at hk
    obtain ⟨x, hx, rfl⟩ := Option.map_eq_some_iff.mp hk
    exact hplaced x (h.placed hx)
  · change (e.labels k).map _ = _
    rw [h.labels, hplace]
    cases hk : l.place k with
    | none => rfl
    | some x =>
      change some _ = some _
      rw [hstart x (h.placed hk)]
  · obtain ⟨g, hgk, hglive', hk, rfl⟩ := of_cut hg hglive
    obtain ⟨x, r, as, hx, hgpos, hxi, hap⟩ := hitem k g hgk hglive' hk
    refine ⟨number x, r, as, by rw [hitems x hxi, hx], ?_⟩
    dsimp only
    rw [hgpos, hmoved x (Layout.lt_length hx) hap]
  · obtain ⟨x, hxi, rfl⟩ := hback y r k as hy
    rw [hitems x hxi] at hy
    have hlt := Layout.lt_length hy
    obtain ⟨k', hk'⟩ := h.covered hy
    refine ⟨k', ?_⟩
    have hne : k' ≠ n := by
      rintro rfl
      rw [hf] at hk'
      obtain rfl := Option.some.inj hk'
      have hstart' : l.start x = l.start i := Nat.add_right_cancel hpos
      exact hxi ((Layout.start_inj (Nat.le_of_lt hlt) (Nat.le_of_lt (Layout.lt_length hi))).mp hstart')
    have hcut : (((({ e with code := code } : Emit κ).removeBytes at_ len).kill n).fixups[k']?) = _ :=
      cut_fixup hk' rfl hne
    rw [hcut, hmoved x hlt (hapart x hlt hxi)]
  · obtain ⟨g₀, hg₀, hl₀, hk, rfl⟩ := of_cut hg hglive
    obtain ⟨g₁, hg₁, hl₁, hk', rfl⟩ := of_cut hg' hglive'
    obtain ⟨x, r, as, hx, hgpos, hxi, hap⟩ := hitem k g₀ hg₀ hl₀ hk
    obtain ⟨x', r', as', hx', hgpos', hxi', hap'⟩ := hitem k' g₁ hg₁ hl₁ hk'
    refine h.distinct hg₀ hg₁ hl₀ hl₁ ?_
    dsimp only at hsame
    split at hsame <;> split at hsame <;> omega

/-- What is behind a branch with no operands begins six bytes behind it. -/
theorem start_behind (hi : l.items[i]? = some (.branch o key [])) {x : Nat} (hx : i < x) : l.start i + 6 ≤ l.start x := by
  have hle := l.start_le (show i + 1 ≤ x by omega)
  rw [Layout.start_succ hi] at hle
  exact hle

section

variable (h : Laid e l) (hf : e.fixups[n]? = some f) (hlive : f.dead = false)
  (hi : l.items[i]? = some (.branch o f.target [])) (hpos : f.pos = l.start i + 1)

include h hf hlive hi hpos

/-- A jump becomes an opcode. -/
theorem merge (t : UInt8) :
    Laid ((({ e with code := e.code.set (f.pos - 1) t } : Emit κ).removeBytes f.pos branchWidth).kill n)
      (l.set i (.plain t [])) := by
  have hchunk := Layout.chunk hi
  have hlt := Layout.lt_length hi
  refine h.cut hf hlive hi hpos _ (by decide) id ?_ (fun key => ?_) (fun x hx => ?_) (fun x hx => ?_)
    (fun y r k as hy => ?_) (fun x hx => ?_) (fun x hx hxi => ?_)
  · have hin : l.start i < e.code.length := by
      have hcode := h.code_start (Nat.le_of_lt hlt)
      rw [hi] at hcode
      exact (List.getElem?_eq_some_iff.mp hcode).1
    rw [Layout.chunks_set, Chunks.flatten_set hchunk, ← h.code, hpos, Nat.add_sub_cancel, take_set_succ t hin,
      List.drop_set_of_lt (by omega), List.append_assoc]
    rfl
  · exact (congrFun Option.map_id _).symm
  · rw [Layout.set, List.length_set]
    exact hx
  · rw [id, Layout.items_set hi, if_neg hx]
  · refine ⟨y, ?_, rfl⟩
    rintro rfl
    rw [Layout.items_set hi, if_pos rfl] at hy
    cases hy
  · unfold Layout.start
    rw [id, Layout.chunks_set]
    by_cases hxi : x ≤ i
    · have hle := l.start_le hxi
      unfold Layout.start at hle hpos
      rw [Chunks.start_set_le _ hxi, if_neg (by omega)]
    · have hbehind := start_behind hi (show i < x by omega)
      have hset := Chunks.start_set_gt hchunk ((Item.plain t [] : Item κ).bytes placeholder) (show i < x by omega)
      have hnew : ((Item.plain t [] : Item κ).bytes placeholder).length = 1 := rfl
      have hold : ((Item.branch o f.target []).bytes placeholder).length = 6 := rfl
      unfold Layout.start at hbehind hpos
      rw [hnew, hold] at hset
      rw [if_pos (by omega)]
      change _ = _ - 5
      omega
  · by_cases hxi' : x ≤ i
    · have hle := l.start_le hxi'
      omega
    · have hbehind := start_behind hi (show i < x by omega)
      right
      change f.pos + 5 ≤ _
      omega

/-- A jump is left out. -/
theorem elide : Laid ((e.removeBytes (f.pos - 1) (1 + branchWidth)).kill n) (l.erase i) := by
  have hchunk := Layout.chunk hi
  have hlt := Layout.lt_length hi
  have hlength : (l.erase i).items.length = l.items.length - 1 := List.length_eraseIdx_of_lt hlt
  refine h.cut hf hlive hi hpos e.code (by decide) (without i) ?_ (fun key => rfl) (fun x hx => ?_)
    (fun x hx => l.items_erase hx) (fun y r k as hy => Layout.without_surjective i y) (fun x hx => ?_)
    (fun x hx hxi => ?_)
  · rw [Layout.chunks_erase, Chunks.flatten_eraseIdx hchunk, ← h.code, hpos, Nat.add_sub_cancel]
    rfl
  · rw [hlength]
    unfold without
    split <;> omega
  · unfold Layout.start
    rw [Layout.chunks_erase, hpos, Nat.add_sub_cancel]
    unfold without
    by_cases hxi : i < x
    · have hbehind := start_behind hi hxi
      have herase := Chunks.start_eraseIdx_ge hchunk (show i ≤ x - 1 by omega)
      have hold : ((Item.branch o f.target []).bytes placeholder).length = 6 := rfl
      unfold Layout.start at hbehind ⊢
      rw [hold, Nat.sub_add_cancel (by omega)] at herase
      rw [if_pos hxi, if_pos (by omega)]
      change _ = _ - 6
      omega
    · have hle := l.start_le (show x ≤ i by omega)
      unfold Layout.start at hle ⊢
      rw [if_neg hxi, if_neg (by omega), Chunks.start_eraseIdx_le (by omega)]
  · by_cases hxi' : x ≤ i
    · have hlt' : l.start x < l.start i := by
        have hle := l.start_le hxi'
        have hne : l.start x ≠ l.start i := fun heq =>
          hxi ((Layout.start_inj (Nat.le_of_lt hx) (Nat.le_of_lt hlt)).mp heq)
        omega
      omega
    · have hbehind := start_behind hi (show i < x by omega)
      right
      change f.pos - 1 + 6 ≤ _
      omega

end

end Laid

end Bbq.Bytecode
