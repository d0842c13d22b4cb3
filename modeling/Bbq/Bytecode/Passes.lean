import Bbq.Bytecode.Chains

/-!
# The passes

`Kept` is what the passes keep: there is a layout, a sound one, in which the same is seen as in the first one, and no
more bytes than there.

* `passThread_kept`, `passTailJump_kept`, `passFallthrough_kept`: they keep it, and do not come to a missing label.
* **`passInvert_kept`**: reversal keeps it if no branch targets a jump (`Direct`).
* Where all chains of jumps are short, branch chaining leaves no branch that targets a jump, and the other passes make
  none.
-/

namespace Bbq.Bytecode

open Bbq.Lib Bbq.Lib.Flow

variable {κ σ ω : Type}

structure Kept (isa : Isa) (m : Machine Instr σ ω) (l₀ : Layout κ) (e : Emit κ) (l : Layout κ) : Prop where
  laid : Laid e l
  sound : l.Sound isa
  same : Same m l₀.graph 0 l.graph 0
  length : l.chunks.flatten.length ≤ l₀.chunks.flatten.length

section

variable [DecidableEq κ] {isa : Isa} {m : Machine Instr σ ω} {cfg : Peephole} {l₀ l : Layout κ} {e : Emit κ}

open Emit

/-! ## Branch chaining -/

omit [DecidableEq κ] in
theorem fixupIndex_congr {e e' : Emit κ} (hlength : e'.fixups.length = e.fixups.length)
    (h : ∀ (n : Nat) (p : Nat → Bool → Bool), (e'.fixups[n]?.any fun f => p f.pos f.dead) =
      e.fixups[n]?.any fun f => p f.pos f.dead) : e'.fixupIndex = e.fixupIndex := by
  funext pos
  unfold fixupIndex
  rw [hlength]
  congr 2
  funext n
  exact h n fun pos' dead => !dead && pos' == pos

/-- What a turn of `pass_thread` does. -/
structure Turned (isa : Isa) (m : Machine Instr σ ω) (gotoOp : UInt8) (l₀ l : Layout κ) (e e' : Emit κ) (n : Nat)
    (l' : Layout κ) : Prop where
  kept : Kept isa m l₀ e' l'
  idx : e'.fixupIndex = e.fixupIndex
  length : e'.fixups.length = e.fixups.length
  others : ∀ k, k ≠ n → e'.fixups[k]? = e.fixups[k]?
  short : l.Short gotoOp → l'.Short gotoOp
  direct : ∀ key, l.hop gotoOp key = none → l'.hop gotoOp key = none
  done : l.Short gotoOp → ∀ f, e'.fixups[n]? = some f → f.dead = false → l'.hop gotoOp f.target = none

omit [DecidableEq κ] in
theorem Turned.refl {n : Nat} (hk : Kept isa m l₀ e l) (hdone : l.Short cfg.gotoOp → ∀ f, e.fixups[n]? = some f →
    f.dead = false → l.hop cfg.gotoOp f.target = none) : Turned isa m cfg.gotoOp l₀ l e e n l :=
  ⟨hk, rfl, rfl, fun _ _ => rfl, id, fun _ => id, hdone⟩

theorem threadTurn_turned (hfits : Fits isa m cfg) {st : Emit κ × Bool} (hk : Kept isa m l₀ st.1 l) (n : Nat) :
    ∃ l', Turned isa m cfg.gotoOp l₀ l st.1 (threadTurn st.1.fixupIndex cfg.gotoOp st n).1 n l' := by
  unfold threadTurn
  cases hf : st.1.fixups[n]? with
  | none =>
    exact ⟨l, .refl hk fun _ f h => (by rw [hf] at h; cases h)⟩
  | some f =>
    dsimp only
    by_cases hdead : f.dead = true
    · rw [if_pos hdead]
      refine ⟨l, .refl hk fun _ f' h hl => ?_⟩
      rw [hf] at h
      obtain rfl := Option.some.inj h
      rw [hdead] at hl
      cases hl
    · rw [if_neg hdead]
      have hlive : f.dead = false := Bool.eq_false_iff.mpr hdead
      obtain ⟨i, o, args, hi, hpos⟩ := hk.laid.live hf hlive
      have hends : l.Short cfg.gotoOp → l.hop cfg.gotoOp (chase st.1 st.1.fixupIndex cfg.gotoOp 8 f.target) = none :=
        fun hshort => by
          obtain ⟨z, hz⟩ := hshort i o f.target args hi
          rw [chase_of_ends hk.laid rfl hz]
          exact hz.hop_none
      obtain ⟨t, ht⟩ := Option.isSome_iff_exists.mp (hk.sound.closed hi)
      obtain ⟨t', ht', hslides⟩ := chase_slides hfits hk.laid hk.sound rfl 8 ht
      generalize hnt : chase st.1 st.1.fixupIndex cfg.gotoOp 8 f.target = nt at hends ht' ⊢
      by_cases heq : nt = f.target
      · rw [if_neg (fun h => h heq)]
        refine ⟨l, .refl hk fun hshort f' h _ => ?_⟩
        rw [hf] at h
        obtain rfl := Option.some.inj h
        rw [← heq]
        exact hends hshort
      · rw [if_pos heq]
        have hn := (List.getElem?_eq_some_iff.mp hf).1
        have hfixup : ∀ k, (st.1.fixups.set n { f with target := nt })[k]? =
            if k = n then some { f with target := nt } else st.1.fixups[k]? := fun k => by
          by_cases hkn : k = n
          · subst hkn
            rw [if_pos rfl, List.getElem?_set_self hn]
          · rw [if_neg hkn, List.getElem?_set_ne (Ne.symm hkn)]
        have hlaid := hk.laid.retarget hf hlive hi hpos o nt
        rw [hk.laid.set_opcode hi hpos] at hlaid
        have hshaped := hk.sound.shaped hi
        have hsound : (l.set i (.branch o nt args)).Sound isa := hk.sound.set hi hshaped fun r k as h => by
          cases h
          exact Option.isSome_iff_exists.mpr ⟨t', ht'⟩
        have hjump : ∀ k as, Item.branch o nt args = .branch cfg.gotoOp k as →
            ∃ k' as', Item.branch o f.target args = .branch cfg.gotoOp k' as' := fun k as h => by
          cases h
          exact ⟨_, _, rfl⟩
        refine ⟨l.set i (.branch o nt args), ⟨hlaid, hsound, ?_, ?_⟩, ?_, List.length_set, fun k hkn => ?_,
          fun hshort => ?_, fun key hnone => Layout.hop_none_set hi hjump hnone, fun hshort f' h _ => ?_⟩
        · exact hk.same.trans (Layout.same_retarget (hk.sound.jumps hfits) hi ht ht' hslides 0)
        · have hlength := Layout.length_set hi (.branch o nt args)
          exact (Nat.add_right_cancel hlength).trans_le hk.length
        · refine fixupIndex_congr List.length_set fun k p => ?_
          dsimp only
          rw [hfixup]
          by_cases hkn : k = n
          · subst hkn
            rw [if_pos rfl, hf]
            rfl
          · rw [if_neg hkn]
        · dsimp only
          rw [hfixup, if_neg hkn]
        · intro j r k as hj
          obtain ⟨y, hy⟩ : ∃ y, l.Ends cfg.gotoOp 8 k y := by
            rw [Layout.items_set hi] at hj
            by_cases hji : j = i
            · rw [if_pos hji] at hj
              cases hj
              exact ⟨_, .here (hends hshort)⟩
            · rw [if_neg hji] at hj
              exact hshort j r k as hj
          exact Layout.Ends.set hi (hends hshort) hy
        · dsimp only at h
          rw [hfixup, if_pos rfl] at h
          obtain rfl := Option.some.inj h
          exact Layout.hop_none_set hi hjump (hends hshort)

/-- **Branch chaining.** -/
theorem passThread_kept (hfits : Fits isa m cfg) (hk : Kept isa m l₀ e l) :
    ∃ l', Kept isa m l₀ (passThread cfg.gotoOp e).1 l' ∧ (l.Short cfg.gotoOp → l'.Direct cfg.gotoOp) := by
  -- after `N` turns the first `N` branches target no jump
  have hrun : ∀ N, ∃ l', Kept isa m l₀ ((List.range N).foldl (threadTurn e.fixupIndex cfg.gotoOp) (e, false)).1 l' ∧
      ((List.range N).foldl (threadTurn e.fixupIndex cfg.gotoOp) (e, false)).1.fixupIndex = e.fixupIndex ∧
      ((List.range N).foldl (threadTurn e.fixupIndex cfg.gotoOp) (e, false)).1.fixups.length = e.fixups.length ∧
      (l.Short cfg.gotoOp → l'.Short cfg.gotoOp ∧ ∀ (n : Nat) (f : Fixup κ), n < N →
        ((List.range N).foldl (threadTurn e.fixupIndex cfg.gotoOp) (e, false)).1.fixups[n]? = some f → f.dead = false →
        l'.hop cfg.gotoOp f.target = none) := fun N => by
    induction N with
    | zero => exact ⟨l, hk, rfl, rfl, fun h => ⟨h, fun n f hn => absurd hn (by omega)⟩⟩
    | succ N ih =>
      rw [List.range_succ, List.foldl_append, List.foldl_cons, List.foldl_nil]
      generalize (List.range N).foldl (threadTurn e.fixupIndex cfg.gotoOp) (e, false) = st at ih ⊢
      obtain ⟨l', hk', hidx, hlength, hshort⟩ := ih
      obtain ⟨l'', h⟩ := threadTurn_turned hfits hk' N
      rw [hidx] at h
      refine ⟨l'', h.kept, h.idx.trans hidx, h.length.trans hlength, fun hs => ⟨h.short (hshort hs).1, ?_⟩⟩
      intro n f hn hf hlive
      by_cases hnN : n = N
      · subst hnN
        exact h.done (hshort hs).1 f hf hlive
      · rw [h.others n hnN] at hf
        exact h.direct _ ((hshort hs).2 n f (by omega) hf hlive)
  obtain ⟨l', hk', -, hlength, hshort⟩ := hrun e.fixups.length
  refine ⟨l', hk', fun hs i o key args hi => ?_⟩
  obtain ⟨n, hn⟩ := hk'.laid.covered hi
  have hlt := (List.getElem?_eq_some_iff.mp hn).1
  exact (hshort hs).2 n _ (by omega) hn rfl

/-! ## The other passes -/

omit [DecidableEq κ] in
theorem foldlM_some {τ : Type} {P : τ → Prop} {f : τ → Nat → Option τ}
    (h : ∀ st n, P st → ∃ st', f st n = some st' ∧ P st') (ns : List Nat) (st : τ) (hst : P st) :
    ∃ st', ns.foldlM f st = some st' ∧ P st' := by
  induction ns generalizing st with
  | nil => exact ⟨st, rfl, hst⟩
  | cons n ns ih =>
    obtain ⟨st', hf, hst'⟩ := h st n hst
    obtain ⟨st'', hrest, hst''⟩ := ih st' hst'
    exact ⟨st'', by rw [List.foldlM_cons, hf]; exact hrest, hst''⟩

/-- There is a layout, and if no branch targets a jump in `l`, none does in it. -/
def Keeps (isa : Isa) (m : Machine Instr σ ω) (gotoOp : UInt8) (l₀ l : Layout κ) (e : Emit κ) : Prop :=
  ∃ l', Kept isa m l₀ e l' ∧ (l.Direct gotoOp → l'.Direct gotoOp)

omit [DecidableEq κ] in
/-- Where a branch goes. -/
theorem Kept.target (hk : Kept isa m l₀ e l) {i : Nat} {o : UInt8} {key : κ} {args : List UInt8}
    (hi : l.items[i]? = some (.branch o key args)) :
    ∃ t, l.place key = some t ∧ t ≤ l.items.length ∧ e.labels key = some (l.start t) := by
  obtain ⟨t, ht⟩ := Option.isSome_iff_exists.mp (hk.sound.closed hi)
  exact ⟨t, ht, hk.laid.placed ht, by rw [hk.laid.labels, ht, Option.map_some]⟩

omit [DecidableEq κ] in
theorem tailJumpTurn_keeps (hfits : Fits isa m cfg) {isTerm : UInt8 → Bool} (hterm : cfg.isTerminator = some isTerm)
    (st : Emit κ × Bool) (n : Nat) (hst : Keeps isa m cfg.gotoOp l₀ l st.1) :
    ∃ st', tailJumpTurn cfg.gotoOp isTerm st n = some st' ∧ Keeps isa m cfg.gotoOp l₀ l st'.1 := by
  obtain ⟨l', hk, hdirect⟩ := id hst
  unfold tailJumpTurn
  cases hf : st.1.fixups[n]? with
  | none => exact ⟨st, rfl, hst⟩
  | some f =>
    dsimp only
    by_cases hdead : f.dead = true
    · rw [if_pos hdead]
      exact ⟨st, rfl, hst⟩
    · rw [if_neg hdead]
      have hlive : f.dead = false := Bool.eq_false_iff.mpr hdead
      obtain ⟨i, o, args, hi, hpos⟩ := hk.laid.live hf hlive
      rw [hk.laid.opcode hi hpos]
      by_cases ho : o = cfg.gotoOp
      · subst ho
        obtain rfl := hk.sound.goto_args hfits hi
        obtain ⟨t, ht, htle, hlabel⟩ := hk.target hi
        rw [if_neg (fun h => h rfl), hlabel]
        dsimp only [Option.bind_eq_bind, Option.bind_some]
        rw [hk.laid.code_start htle]
        cases hitem : l'.items[t]? with
        | none => exact ⟨st, rfl, hst⟩
        | some item =>
          rw [Option.map_some]
          dsimp only
          by_cases hisTerm : isTerm item.opcode = true
          · obtain ⟨hplain, hnone, hleaving⟩ := hfits.terminator hterm _ hisTerm
            have hshaped := hk.sound.shaped hitem
            rw [if_neg (by rw [hisTerm]; decide)]
            cases item with
            | branch r k as => exact absurd (hshaped.1.symm.trans hplain) (by decide)
            | plain r as =>
              obtain rfl := isa.operands_unique hnone hshaped.2
              refine ⟨_, rfl, l'.set i (.plain r []), ⟨hk.laid.merge hf hlive hi hpos r, ?_, ?_, ?_⟩, fun hd => ?_⟩
              · exact hk.sound.set hi hshaped fun _ _ _ h => (by cases h)
              · exact hk.same.trans (Layout.same_merge (hk.sound.jumps hfits) hi ((hfits.silent _ _).mpr rfl) ht hitem
                  hleaving 0)
              · have hlength := Layout.length_set hi (.plain r [])
                have hle := hk.length
                have hold : ((Item.branch cfg.gotoOp f.target []).bytes placeholder).length = 6 := rfl
                have hnew : ((Item.plain r [] : Item κ).bytes placeholder).length = 1 := rfl
                omega
              · exact (hdirect hd).set hi (fun k as h => (by cases h)) fun r k as h => (by cases h)
          · rw [if_pos (by simpa using hisTerm)]
            exact ⟨st, rfl, hst⟩
      · rw [if_pos ho]
        exact ⟨st, rfl, hst⟩

omit [DecidableEq κ] in
theorem fallthroughTurn_keeps (hfits : Fits isa m cfg) (st : Emit κ × Bool) (n : Nat)
    (hst : Keeps isa m cfg.gotoOp l₀ l st.1) :
    ∃ st', fallthroughTurn cfg.gotoOp st n = some st' ∧ Keeps isa m cfg.gotoOp l₀ l st'.1 := by
  obtain ⟨l', hk, hdirect⟩ := id hst
  unfold fallthroughTurn
  cases hf : st.1.fixups[n]? with
  | none => exact ⟨st, rfl, hst⟩
  | some f =>
    dsimp only
    by_cases hdead : f.dead = true
    · rw [if_pos hdead]
      exact ⟨st, rfl, hst⟩
    · rw [if_neg hdead]
      have hlive : f.dead = false := Bool.eq_false_iff.mpr hdead
      obtain ⟨i, o, args, hi, hpos⟩ := hk.laid.live hf hlive
      rw [hk.laid.opcode hi hpos]
      by_cases ho : o = cfg.gotoOp
      · subst ho
        obtain rfl := hk.sound.goto_args hfits hi
        obtain ⟨t, ht, htle, hlabel⟩ := hk.target hi
        rw [if_neg (fun h => h rfl), hlabel]
        dsimp only [Option.bind_eq_bind, Option.bind_some]
        by_cases hnext : l'.start t = f.pos + branchWidth
        · rw [if_neg (fun h => h hnext)]
          have hbehind : l'.start (i + 1) = l'.start i + 6 := Layout.start_succ hi
          have hwidth : branchWidth = 5 := rfl
          obtain rfl := (Layout.start_inj htle (Layout.lt_length hi)).mp (show l'.start t = l'.start (i + 1) by omega)
          refine ⟨_, rfl, l'.erase i, ⟨hk.laid.elide hf hlive hi hpos, hk.sound.erase i, ?_, ?_⟩, fun hd => ?_⟩
          · have hzero : without i 0 = 0 := if_neg (by omega)
            have hsame := Layout.same_elide (hk.sound.jumps hfits) hi ((hfits.silent _ _).mpr rfl) ht 0
            rw [hzero] at hsame
            exact hk.same.trans hsame
          · exact (Layout.length_erase hi).trans hk.length
          · exact (hdirect hd).erase hi
        · rw [if_pos hnext]
          exact ⟨st, rfl, hst⟩
      · rw [if_pos ho]
        exact ⟨st, rfl, hst⟩

/-- What `pass_invert` keeps. -/
def InvertKeeps (isa : Isa) (m : Machine Instr σ ω) (gotoOp : UInt8) (l₀ : Layout κ) (st : Inverting κ) : Prop :=
  ∃ l, Kept isa m l₀ st.emit l ∧ l.Direct gotoOp ∧ st.idx = st.emit.fixupIndex

omit [DecidableEq κ] in
theorem invertTurn_keeps (hfits : Fits isa m cfg) {invert : UInt8 → UInt8} (hinvert : cfg.invert = some invert)
    (st : Inverting κ) (n : Nat) (hst : InvertKeeps isa m cfg.gotoOp l₀ st) :
    ∃ st', invertTurn cfg.gotoOp invert st n = some st' ∧ InvertKeeps isa m cfg.gotoOp l₀ st' := by
  obtain ⟨l, hk, hdirect, hidx⟩ := id hst
  have hwidth : branchWidth = 5 := rfl
  unfold invertTurn
  dsimp only
  cases hf : st.emit.fixups[n]? with
  | none => exact ⟨st, rfl, hst⟩
  | some f =>
    dsimp only
    by_cases hdead : f.dead = true
    · rw [if_pos hdead]
      exact ⟨st, rfl, hst⟩
    rw [if_neg hdead]
    have hlive : f.dead = false := Bool.eq_false_iff.mpr hdead
    obtain ⟨i, o, args, hi, hpos⟩ := hk.laid.live hf hlive
    rw [hk.laid.opcode hi hpos]
    by_cases hinv : invert o = 0
    · rw [if_pos hinv]
      exact ⟨st, rfl, hst⟩
    rw [if_neg hinv]
    obtain ⟨hown, hown', hbranch', hne, hne', hexec⟩ := hfits.inverse hinvert o hinv
    obtain rfl := isa.operands_unique hown (hk.sound.shaped hi).2
    have hbehind : l.start (i + 1) = l.start i + 6 := Layout.start_succ hi
    rw [show f.pos + branchWidth = l.start (i + 1) by omega]
    by_cases hgoto : st.emit.code[l.start (i + 1)]? = some cfg.gotoOp
    swap
    · rw [if_pos hgoto]
      exact ⟨st, rfl, hst⟩
    rw [if_neg (fun h => h hgoto), hidx]
    cases hj : st.emit.fixupIndex (l.start (i + 1) + 1) with
    | none => exact ⟨st, rfl, hst⟩
    | some j =>
      obtain ⟨gf, hgf, hglive, hgpos⟩ := Laid.of_fixupIndex hj
      -- the branch found is a jump right behind
      obtain ⟨r, as, hi'⟩ := hk.laid.item_eq hgf hglive (Layout.lt_length hi) hgpos
      rw [hk.laid.code_start (Layout.lt_length hi), hi', Option.map_some] at hgoto
      obtain rfl : r = cfg.gotoOp := Option.some.inj hgoto
      obtain rfl := hk.sound.goto_args hfits hi'
      obtain ⟨t, ht, htle, hlabel⟩ := hk.target hi
      obtain ⟨t', ht', -, -⟩ := hk.target hi'
      dsimp only
      rw [hgf, hlabel]
      dsimp only [Option.bind_eq_bind, Option.bind_some]
      have hbehind' : l.start (i + 2) = l.start (i + 1) + 6 := Layout.start_succ hi'
      by_cases hnext : l.start t = l.start (i + 1) + 1 + branchWidth
      swap
      · rw [if_pos hnext]
        exact ⟨st, rfl, hst⟩
      rw [if_neg (fun h => h hnext)]
      obtain rfl := (Layout.start_inj htle (Layout.lt_length hi')).mp (show l.start t = l.start (i + 2) by omega)
      have hkey := hdirect (i + 1) _ _ _ hi'
      have hshaped : (Item.branch (invert o) gf.target [] : Item κ).Shaped isa := ⟨hbranch', hown'⟩
      have hlaid := hk.laid.retarget hf hlive hi hpos (invert o) gf.target
      have hsound : (l.set i (.branch (invert o) gf.target [])).Sound isa := hk.sound.set hi hshaped fun r k as h => by
        cases h
        rw [ht']
        rfl
      have hdirect' : (l.set i (.branch (invert o) gf.target [])).Direct cfg.gotoOp := by
        refine hdirect.set hi (fun k as h => ?_) fun r k as h => ?_
        · injection h with ho
          exact hne' ho
        · cases h
          exact hkey
      have hi₁ : (l.set i (.branch (invert o) gf.target [])).items[i + 1]? = some (.branch cfg.gotoOp gf.target []) := by
        rw [Layout.items_set hi, if_neg (by omega), hi']
      have hjn : j ≠ n := by
        rintro rfl
        obtain rfl := Option.some.inj (hf.symm.trans hgf)
        omega
      have hgf₁ : (st.emit.fixups.set n { f with target := gf.target })[j]? = some gf := by
        rw [List.getElem?_set_ne (Ne.symm hjn), hgf]
      have hstart := Layout.start_set_branch hi (invert o) gf.target (i + 1)
      have helide := hlaid.elide hgf₁ hglive hi₁ (by rw [hstart]; exact hgpos)
      rw [hgpos, Nat.add_sub_cancel] at helide
      refine ⟨_, rfl, _, ⟨helide, hsound.erase (i + 1), ?_, ?_⟩, hdirect'.erase hi₁, rfl⟩
      · have hzero : without (i + 1) 0 = 0 := if_neg (by omega)
        have hjumps := hk.sound.jumps hfits
        have hloud : ∀ c, c ≠ cfg.gotoOp → m.silent (c, []) = false := fun c hc =>
          Bool.eq_false_iff.mpr fun h => hc ((hfits.silent c []).mp h)
        have hfree : ∀ (x : Nat) r k as, l.items[x]? = some (Item.branch r k as) → l.place k ≠ some (i + 1) :=
          fun x r k as hx hplace => by
            have hnone := hdirect x r k as hx
            rw [Layout.hop_of hplace hi'] at hnone
            cases hnone
        have hsame := Layout.same_reverse hjumps hi (hloud o hne) ht hi' ((hfits.silent _ _).mpr rfl) ht'
          (hloud _ hne') hexec hfree (show 0 ≠ i + 1 by omega)
        rw [hzero] at hsame
        exact hk.same.trans hsame
      · have hlength := Layout.length_set hi (.branch (invert o) gf.target [])
        have herase := Layout.length_erase hi₁
        have hold : ((Item.branch (invert o) gf.target []).bytes placeholder).length = 6 := rfl
        have hnew : ((Item.branch o f.target []).bytes placeholder).length = 6 := rfl
        have hle := hk.length
        omega

/-! ## The passes -/

omit [DecidableEq κ] in
theorem passTailJump_kept (hfits : Fits isa m cfg) {isTerm : UInt8 → Bool} (hterm : cfg.isTerminator = some isTerm)
    (hk : Kept isa m l₀ e l) :
    ∃ e' b, passTailJump cfg.gotoOp isTerm e = some (e', b) ∧ Keeps isa m cfg.gotoOp l₀ l e' := by
  obtain ⟨st, hst, hkeeps⟩ := foldlM_some (tailJumpTurn_keeps hfits hterm) (List.range e.fixups.length).reverse (e, false)
    ⟨l, hk, id⟩
  exact ⟨st.1, st.2, hst, hkeeps⟩

omit [DecidableEq κ] in
theorem passFallthrough_kept (hfits : Fits isa m cfg) (hk : Kept isa m l₀ e l) :
    ∃ e' b, passFallthrough cfg.gotoOp e = some (e', b) ∧ Keeps isa m cfg.gotoOp l₀ l e' := by
  obtain ⟨st, hst, hkeeps⟩ := foldlM_some (fallthroughTurn_keeps hfits) (List.range e.fixups.length).reverse (e, false)
    ⟨l, hk, id⟩
  exact ⟨st.1, st.2, hst, hkeeps⟩

omit [DecidableEq κ] in
/-- **Branch reversal, where no branch targets a jump.** -/
theorem passInvert_kept (hfits : Fits isa m cfg) {invert : UInt8 → UInt8} (hinvert : cfg.invert = some invert)
    (hk : Kept isa m l₀ e l) (hdirect : l.Direct cfg.gotoOp) :
    ∃ e' b l', passInvert cfg.gotoOp invert e = some (e', b) ∧ Kept isa m l₀ e' l' ∧ l'.Direct cfg.gotoOp := by
  obtain ⟨st, hst, l', hk', hdirect', -⟩ := foldlM_some (invertTurn_keeps hfits hinvert) (List.range e.fixups.length)
    ⟨e, e.fixupIndex, false⟩ ⟨l, hk, hdirect, rfl⟩
  refine ⟨st.emit, st.changed, l', ?_, hk', hdirect'⟩
  unfold passInvert
  rw [hst]
  rfl

/-! ## Rounds -/

/-- Reversal is off, or all chains of jumps are short. -/
def Reversible (cfg : Peephole) (l : Layout κ) : Prop := cfg.invert.isSome → l.Short cfg.gotoOp

omit [DecidableEq κ] in
theorem tailJumpIf_kept (hfits : Fits isa m cfg) (hk : Kept isa m l₀ e l) :
    ∃ e' b, tailJumpIf cfg e = some (e', b) ∧ Keeps isa m cfg.gotoOp l₀ l e' := by
  unfold tailJumpIf
  cases hterm : cfg.isTerminator with
  | none => exact ⟨e, false, rfl, l, hk, id⟩
  | some isTerm => exact passTailJump_kept hfits hterm hk

omit [DecidableEq κ] in
theorem invertIf_kept (hfits : Fits isa m cfg) (hk : Kept isa m l₀ e l)
    (hdirect : cfg.invert.isSome → l.Direct cfg.gotoOp) :
    ∃ e' b l', invertIf cfg e = some (e', b) ∧ Kept isa m l₀ e' l' ∧ Reversible cfg l' := by
  unfold invertIf
  cases hinvert : cfg.invert with
  | none => exact ⟨e, false, l, rfl, hk, fun h => (by rw [hinvert] at h; cases h)⟩
  | some invert =>
    obtain ⟨e', b, l', hpass, hk', hdirect'⟩ := passInvert_kept hfits hinvert hk (hdirect (by rw [hinvert]; rfl))
    exact ⟨e', b, l', hpass, hk', fun _ => hdirect'.short⟩

theorem round_kept (hfits : Fits isa m cfg) (hk : Kept isa m l₀ e l) (hrev : Reversible cfg l) :
    ∃ e' b l', e.round cfg = some (e', b) ∧ Kept isa m l₀ e' l' ∧ Reversible cfg l' := by
  obtain ⟨l₁, hk₁, hdirect₁⟩ := passThread_kept hfits hk
  obtain ⟨e₂, b₂, hpass₂, l₂, hk₂, hdirect₂⟩ := tailJumpIf_kept hfits hk₁
  obtain ⟨e₃, b₃, hpass₃, l₃, hk₃, hdirect₃⟩ := passFallthrough_kept hfits hk₂
  obtain ⟨e₄, b₄, l₄, hpass₄, hk₄, hrev₄⟩ := invertIf_kept hfits hk₃ fun h => hdirect₃ (hdirect₂ (hdirect₁ (hrev h)))
  unfold Emit.round
  dsimp only
  rw [hpass₂]
  dsimp only [Option.bind_eq_bind, Option.bind_some]
  rw [hpass₃]
  dsimp only [Option.bind_some]
  rw [hpass₄]
  exact ⟨e₄, _, l₄, rfl, hk₄, hrev₄⟩

/-- **All rounds.** -/
theorem rounds_kept (hfits : Fits isa m cfg) (limit : Nat) (hk : Kept isa m l₀ e l) (hrev : Reversible cfg l) :
    ∃ e' l', e.rounds cfg limit = some e' ∧ Kept isa m l₀ e' l' := by
  induction limit generalizing e l with
  | zero => exact ⟨e, l, rfl, hk⟩
  | succ limit ih =>
    obtain ⟨e', b, l', hround, hk', hrev'⟩ := round_kept hfits hk hrev
    unfold rounds
    rw [hround]
    dsimp only [Option.bind_eq_bind, Option.bind_some]
    cases b with
    | false => exact ⟨e', l', rfl, hk'⟩
    | true => exact ih hk' hrev'

end

end Bbq.Bytecode
