import Bbq.Bytecode.Laid

/-!
# Chains of jumps

What the emitter knows of the opcodes is to be right (`Fits`). From a key to where a jump there leads is a `hop`.

* `chase_slides`: the loop of `pass_thread` follows such jumps.
* `chase_of_ends`: it comes to the end of them if there are eight at most (`Ends`, `Short`). A chain that leads back to
  itself has no end.
* `Ends.set`: a branch that is led to the end of its chain makes no other chain longer.
-/

namespace Bbq.Bytecode

open Bbq.Lib Bbq.Lib.Flow

variable {κ σ ω : Type}

/-- What a `Peephole` says of opcodes is so. -/
structure Fits (isa : Isa) (m : Machine Instr σ ω) (cfg : Peephole) : Prop where
  goto_branch : isa.branch cfg.gotoOp = true
  goto_operands : isa.operands cfg.gotoOp [] = some []
  silent : ∀ o args, m.silent (o, args) = true ↔ o = cfg.gotoOp
  terminator : ∀ {isTerm}, cfg.isTerminator = some isTerm → ∀ t, isTerm t = true →
    isa.branch t = false ∧ isa.operands t [] = some [] ∧ ∀ s, Leaving (m.exec (t, []) s)
  inverse : ∀ {invert}, cfg.invert = some invert → ∀ c, invert c ≠ 0 →
    isa.operands c [] = some [] ∧ isa.operands (invert c) [] = some [] ∧ isa.branch (invert c) = true ∧
      c ≠ cfg.gotoOp ∧ invert c ≠ cfg.gotoOp ∧ ∀ s, Opposite (m.exec (c, []) s) (m.exec (invert c, []) s)

namespace Layout

/-- Where a jump at a key leads. -/
def hop (l : Layout κ) (gotoOp : UInt8) (key : κ) : Option κ :=
  match (l.place key).bind fun i => l.items[i]? with
  | some (.branch o k _) => if o = gotoOp then some k else none
  | _ => none

/-- From `key`, so many jumps at most lead to `z`, where there is none. -/
inductive Ends (l : Layout κ) (gotoOp : UInt8) : Nat → κ → κ → Prop
  | here {n : Nat} {key : κ} (h : l.hop gotoOp key = none) : Ends l gotoOp n key key
  | hop {n : Nat} {key k z : κ} (h : l.hop gotoOp key = some k) (hz : Ends l gotoOp n k z) :
    Ends l gotoOp (n + 1) key z

def Short (l : Layout κ) (gotoOp : UInt8) : Prop :=
  ∀ (i : Nat) o key args, l.items[i]? = some (Item.branch o key args) → ∃ z, l.Ends gotoOp 8 key z

def Direct (l : Layout κ) (gotoOp : UInt8) : Prop :=
  ∀ (i : Nat) o key args, l.items[i]? = some (Item.branch o key args) → l.hop gotoOp key = none

variable {l : Layout κ} {g : UInt8} {key k z : κ} {n i : Nat} {o : UInt8} {args : List UInt8}

theorem Direct.short (h : l.Direct g) : l.Short g := fun i o key args hi => ⟨key, .here (h i o key args hi)⟩

theorem hop_eq_some (h : l.hop g key = some k) :
    ∃ i args, l.place key = some i ∧ l.items[i]? = some (.branch g k args) := by
  unfold hop at h
  split at h
  · rename_i o k' args hitem
    obtain ⟨i, hi, hget⟩ := Option.bind_eq_some_iff.mp hitem
    by_cases ho : o = g
    · rw [if_pos ho] at h
      obtain rfl := Option.some.inj h
      exact ⟨i, args, hi, by rw [hget, ho]⟩
    · rw [if_neg ho] at h
      cases h
  · cases h

theorem hop_of (hi : l.place key = some i) (hget : l.items[i]? = some (.branch g k args)) : l.hop g key = some k := by
  unfold hop
  rw [hi, Option.bind_some, hget]
  exact if_pos rfl

theorem Ends.hop_none (h : l.Ends g n key z) : l.hop g z = none := by
  induction h with
  | here h => exact h
  | hop _ _ ih => exact ih

/-- A jump to itself does not end. -/
theorem Ends.ne (h : l.Ends g n key z) : l.hop g key ≠ some key := by
  induction h with
  | here h =>
    rw [h]
    exact fun h => (by cases h)
  | hop h hz ih =>
    intro hself
    obtain rfl := Option.some.inj (h.symm.trans hself)
    exact ih hself

/-! ## Changes -/

/-- A change that makes no jump. -/
theorem hop_none_set {item item' : Item κ} (hi : l.items[i]? = some item)
    (hjump : ∀ k as, item' = .branch g k as → ∃ k' as', item = .branch g k' as') (hk : l.hop g k = none) :
    (l.set i item').hop g k = none := by
  cases h : (l.set i item').hop g k with
  | none => rfl
  | some y =>
    obtain ⟨j, as, hj, hget⟩ := hop_eq_some h
    rw [items_set hi] at hget
    by_cases hji : j = i
    · subst hji
      rw [if_pos rfl] at hget
      obtain ⟨k', as', rfl⟩ := hjump y as (Option.some.inj hget)
      exact absurd (hk.symm.trans (hop_of hj hi)) (by simp)
    · rw [if_neg hji] at hget
      exact absurd (hk.symm.trans (hop_of hj hget)) (by simp)

/-- Chains of jumps get no longer where a branch goes to the end of its own. -/
theorem Ends.set (hi : l.items[i]? = some (.branch o key args)) (hz : l.hop g z = none) {y : κ} (h : l.Ends g n k y) :
    ∃ y', (l.set i (.branch o z args)).Ends g n k y' := by
  have hjump : ∀ k as, (Item.branch o z args) = .branch g k as →
      ∃ k' as', (Item.branch o key args) = .branch g k' as' := fun k as h => by
    cases h
    exact ⟨key, args, rfl⟩
  induction h with
  | here h => exact ⟨_, .here (hop_none_set hi hjump h)⟩
  | @hop n k k' y h _ ih =>
    obtain ⟨y', hy'⟩ := ih
    cases hset : (l.set i (.branch o z args)).hop g k with
    | none => exact ⟨k, .here hset⟩
    | some k'' =>
      obtain ⟨j, as, hj, hget⟩ := hop_eq_some hset
      rw [items_set hi] at hget
      by_cases hji : j = i
      · rw [if_pos hji] at hget
        cases hget
        exact ⟨z, .hop hset (.here (hop_none_set hi hjump hz))⟩
      · rw [if_neg hji] at hget
        obtain rfl := Option.some.inj (h.symm.trans (hop_of hj hget))
        exact ⟨y', .hop hset hy'⟩

/-- If no branch targets a jump, none does when there is something else in the place of one. -/
theorem Direct.set (h : l.Direct g) {item item' : Item κ} (hi : l.items[i]? = some item)
    (hjump : ∀ k as, item' ≠ .branch g k as) (hkey : ∀ r k as, item' = .branch r k as → l.hop g k = none) :
    (l.set i item').Direct g := by
  intro j r k as hj
  refine hop_none_set hi (fun k as h => absurd h (hjump k as)) ?_
  rw [items_set hi] at hj
  by_cases hji : j = i
  · rw [if_pos hji] at hj
    exact hkey r k as (Option.some.inj hj)
  · rw [if_neg hji] at hj
    exact h j r k as hj

/-- If no branch targets a jump, none does when a jump is gone. -/
theorem Direct.erase (h : l.Direct g) (hi : l.items[i]? = some (.branch g key args)) : (l.erase i).Direct g := by
  intro y r k as hy
  obtain ⟨x, hx, rfl⟩ := without_surjective i y
  rw [items_erase l hx] at hy
  have hnone := h x r k as hy
  cases hhop : (l.erase i).hop g k with
  | none => rfl
  | some k' =>
    obtain ⟨j', as', hj', hget⟩ := hop_eq_some hhop
    obtain ⟨j, hj, rfl⟩ := Option.map_eq_some_iff.mp (show (l.place k).map (without i) = some j' from hj')
    by_cases hji : j = i
    · subst hji
      exact absurd (hnone.symm.trans (hop_of hj hi)) (by simp)
    · rw [items_erase l hji] at hget
      exact absurd (hnone.symm.trans (hop_of hj hget)) (by simp)

end Layout

section

variable {isa : Isa} {m : Machine Instr σ ω} {cfg : Peephole} {l : Layout κ}

theorem Layout.Sound.jumps (hl : l.Sound isa) (hfits : Fits isa m cfg) : l.Jumps m := fun i o args hi => by
  cases hs : m.silent (o, args) with
  | false => rfl
  | true =>
    have hbranch := (hl.shaped hi).1
    rw [(hfits.silent o args).mp hs, hfits.goto_branch] at hbranch
    cases hbranch

theorem Layout.Sound.set (hl : l.Sound isa) {i : Nat} {item item' : Item κ} (hi : l.items[i]? = some item)
    (hshaped : item'.Shaped isa) (hplace : ∀ o key args, item' = .branch o key args → (l.place key).isSome) :
    (l.set i item').Sound isa := by
  refine ⟨fun {j item} hj => ?_, fun {j r k as} hj => ?_⟩
  · rw [Layout.items_set hi] at hj
    by_cases hji : j = i
    · rw [if_pos hji] at hj
      obtain rfl := Option.some.inj hj
      exact hshaped
    · rw [if_neg hji] at hj
      exact hl.shaped hj
  · rw [Layout.items_set hi] at hj
    by_cases hji : j = i
    · rw [if_pos hji] at hj
      exact hplace r k as (Option.some.inj hj)
    · rw [if_neg hji] at hj
      exact hl.closed hj

theorem Layout.Sound.erase (hl : l.Sound isa) (i : Nat) : (l.erase i).Sound isa := by
  refine ⟨fun {y item} hy => ?_, fun {y r k as} hy => ?_⟩
  · obtain ⟨x, hx, rfl⟩ := Layout.without_surjective i y
    rw [Layout.items_erase l hx] at hy
    exact hl.shaped hy
  · obtain ⟨x, hx, rfl⟩ := Layout.without_surjective i y
    rw [Layout.items_erase l hx] at hy
    change ((l.place k).map _).isSome
    rw [Option.isSome_map]
    exact hl.closed hy

/-- The operands of a jump. -/
theorem Layout.Sound.goto_args (hl : l.Sound isa) (hfits : Fits isa m cfg) {i : Nat} {key : κ} {args : List UInt8}
    (hi : l.items[i]? = some (.branch cfg.gotoOp key args)) : args = [] :=
  isa.operands_unique hfits.goto_operands (hl.shaped hi).2

theorem Layout.length_set {i : Nat} {item : Item κ} (hi : l.items[i]? = some item) (item' : Item κ) :
    (l.set i item').chunks.flatten.length + (item.bytes placeholder).length =
      l.chunks.flatten.length + (item'.bytes placeholder).length := by
  have hset := Chunks.start_set_gt (Layout.chunk hi) (item'.bytes placeholder) (Layout.lt_length hi)
  rw [← Layout.chunks_length l, Chunks.start_length] at hset
  rw [Layout.chunks_set, ← hset, ← Chunks.start_length, List.length_set]

theorem Layout.length_erase {i : Nat} {item : Item κ} (hi : l.items[i]? = some item) :
    (l.erase i).chunks.flatten.length ≤ l.chunks.flatten.length := by
  rw [Layout.chunks_erase, Chunks.flatten_eraseIdx (Layout.chunk hi), List.length_append, List.length_take,
    List.length_drop]
  omega

end

/-! ## The loop over `hops` -/

section Thread

variable [DecidableEq κ] {isa : Isa} {m : Machine Instr σ ω} {cfg : Peephole} {l₀ l : Layout κ} {e : Emit κ}
  {idx : Nat → Option Nat}

open Emit

/-- A turn of the loop over `hops`. -/
theorem chase_succ (h : Laid e l) (hidx : e.fixupIndex = idx) (g : UInt8) (hops : Nat) (nt : κ) :
    chase e idx g (hops + 1) nt =
      match l.hop g nt with
      | none => nt
      | some k => if k = nt then nt else chase e idx g hops k := by
  rw [chase, h.labels]
  unfold Layout.hop
  cases hplace : l.place nt with
  | none => rfl
  | some j =>
    rw [Option.bind_some, Option.map_some]
    dsimp only
    rw [h.code_start (h.placed hplace)]
    cases hj : l.items[j]? with
    | none => rfl
    | some item =>
      rw [Option.map_some]
      by_cases hop : item.opcode = g
      · rw [if_neg (by rw [hop]; exact fun h => h rfl), ← hidx]
        cases item with
        | plain o args =>
          cases hfix : e.fixupIndex (l.start j + 1) with
          | none => rfl
          | some n =>
            obtain ⟨f, hf, hlive, hpos⟩ := Laid.of_fixupIndex hfix
            obtain ⟨o', as, hitem⟩ := h.item_eq hf hlive (h.placed hplace) hpos
            rw [hj] at hitem
            cases hitem
        | branch o k args =>
          obtain ⟨n, hn⟩ := h.covered hj
          have hfix := h.fixupIndex_eq hn rfl
          dsimp only at hfix
          rw [hfix, Option.bind_some, hn]
          dsimp only
          rw [if_pos (show o = g from hop)]
      · rw [if_pos (fun h => hop (Option.some.inj h))]
        cases item with
        | plain o args => rfl
        | branch o k args =>
          dsimp only
          rw [if_neg (show ¬ o = g from hop)]

/-- Where the loop comes to if the jumps end. -/
theorem chase_of_ends (h : Laid e l) (hidx : e.fixupIndex = idx) {g : UInt8} {n : Nat} {key z : κ}
    (hz : l.Ends g n key z) : chase e idx g n key = z := by
  induction hz with
  | @here n key hnone =>
    cases n with
    | zero => rfl
    | succ n => rw [chase_succ h hidx, hnone]
  | hop hhop hz ih =>
    rw [chase_succ h hidx, hhop]
    dsimp only
    rw [if_neg (fun heq => hz.ne (by rw [heq] at hhop ⊢; exact hhop)), ih]

/-- The loop follows jumps. -/
theorem chase_slides (hfits : Fits isa m cfg) (h : Laid e l) (hl : l.Sound isa) (hidx : e.fixupIndex = idx) (hops : Nat)
    {nt : κ} {t : Nat} (ht : l.place nt = some t) :
    ∃ t', l.place (chase e idx cfg.gotoOp hops nt) = some t' ∧ Slides m l.graph t t' := by
  induction hops generalizing nt t with
  | zero => exact ⟨t, ht, .refl⟩
  | succ hops ih =>
    rw [chase_succ h hidx]
    cases hhop : l.hop cfg.gotoOp nt with
    | none => exact ⟨t, ht, .refl⟩
    | some k =>
      dsimp only
      by_cases hk : k = nt
      · rw [if_pos hk]
        exact ⟨t, ht, .refl⟩
      · rw [if_neg hk]
        obtain ⟨i, args, hi, hget⟩ := Layout.hop_eq_some hhop
        obtain rfl := Option.some.inj (ht.symm.trans hi)
        obtain ⟨t₁, ht₁⟩ := Option.isSome_iff_exists.mp (hl.closed hget)
        obtain ⟨t', ht', hslides⟩ := ih ht₁
        exact ⟨t', ht', (Slides.jump (Layout.graph_branch hget ht₁) ((hfits.silent _ _).mpr rfl) rfl).trans hslides⟩

end Thread

end Bbq.Bytecode
