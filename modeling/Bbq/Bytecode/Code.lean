import Bbq.Bytecode.Passes
import Bbq.Lib.Leb128
import Mathlib.Algebra.Ring.Int.Defs
import Mathlib.Algebra.Ring.Nat

/-!
# The finished code

A reader finds an opcode, the target in LEB128 if it is a branch, and its operands (`decode`); so the code is a program
whose places are its positions.

* `targetBytes_read`: a target is read back from its five bytes, if it is below 2^34.
* `backpatch_spec`: `backpatch` writes the start of the item a branch goes to, for each branch of a layout.
* **`backpatch_same`**: the same is seen in the code as in the layout.
-/

namespace Bbq.Bytecode

open Bbq.Lib Bbq.Lib.Flow

/-- What a reader finds at a position. -/
def decode (isa : Isa) (code : List UInt8) : FlowGraph Instr Nat := fun pc =>
  match code.drop pc with
  | [] => none
  | o :: rest =>
    if isa.branch o = true then
      (Leb128.first rest).bind fun g =>
        if Leb128.signed g < 0 then none
        else (isa.operands o (rest.drop g.length)).map fun args =>
          ⟨(o, args), some (Leb128.signed g).toNat, pc + 1 + g.length + args.length⟩
    else (isa.operands o rest).map fun args => ⟨(o, args), none, pc + 1 + args.length⟩

/-! ## Targets -/

/-- What `backpatch` writes for a target. -/
def targetBytes (v : Nat) : List UInt8 := (List.range branchWidth).map (Emit.targetByte v)

theorem targetByte_toNat (v i : Nat) :
    (Emit.targetByte v i).toNat = v / 2 ^ (7 * i) % 128 + if i < 4 then 128 else 0 := by
  have hgroup : ((v >>> (7 * i)) &&& 0x7f).toUInt8.toNat = v / 2 ^ (7 * i) % 128 := by
    rw [show (0x7f : Nat) = 2 ^ 7 - 1 from rfl, Nat.and_two_pow_sub_one_eq_mod, Nat.shiftRight_eq_div_pow,
      Leb128.toNat_toUInt8 (by omega)]
  have hlt : v / 2 ^ (7 * i) % 128 < 128 := Nat.mod_lt _ (by omega)
  unfold Emit.targetByte
  dsimp only
  by_cases hi : i < 4
  · rw [if_pos (show i < branchWidth - 1 from hi), if_pos hi, Bbq.Leb128.continued (by omega), hgroup,
      Leb128.toNat_toUInt8 (by omega)]
  · rw [if_neg (show ¬ i < branchWidth - 1 from hi), if_neg hi, hgroup]
    rfl

theorem targetBytes_length (v : Nat) : (targetBytes v).length = 5 := by
  unfold targetBytes
  rw [List.length_map, List.length_range]
  rfl

theorem targetBytes_eq (v : Nat) : targetBytes v =
    [Emit.targetByte v 0, Emit.targetByte v 1, Emit.targetByte v 2, Emit.targetByte v 3, Emit.targetByte v 4] := rfl

/-- A target is read back. -/
theorem targetBytes_read {v : Nat} (hv : v < 2 ^ 34) (rest : List UInt8) :
    Leb128.first (targetBytes v ++ rest) = some (targetBytes v) ∧ Leb128.signed (targetBytes v) = v := by
  have hbyte := targetByte_toNat v
  constructor
  · refine Leb128.first_append ?_ rest
    rw [targetBytes_eq, Leb128.first_cons_more (by rw [hbyte, if_pos (by omega)]; omega),
      Leb128.first_cons_more (by rw [hbyte, if_pos (by omega)]; omega),
      Leb128.first_cons_more (by rw [hbyte, if_pos (by omega)]; omega),
      Leb128.first_cons_more (by rw [hbyte, if_pos (by omega)]; omega),
      Leb128.first_cons_last (by rw [hbyte, if_neg (by omega)]; omega)]
    rfl
  · have hgroup : ∀ i, (Emit.targetByte v i).toNat % 128 = v / 2 ^ (7 * i) % 128 := fun i => by
      rw [hbyte]
      split <;> omega
    have hvalue : Leb128.value (targetBytes v) = v := by
      rw [targetBytes_eq, Leb128.value_cons, Leb128.value_cons, Leb128.value_cons, Leb128.value_cons,
        Leb128.value_cons, Leb128.value_nil, hgroup, hgroup, hgroup, hgroup, hgroup]
      norm_num
      omega
    unfold Leb128.signed
    rw [hvalue, targetBytes_length, Int.bmod_def]
    norm_num
    omega

/-! ## Backpatching -/

/-- A stretch is overwritten one element after the other. -/
theorem foldl_set {α : Type} (f : Nat → α) (xs : List α) (pos n : Nat) (h : pos + n ≤ xs.length) :
    (List.range n).foldl (fun xs i => xs.set (pos + i) (f i)) xs = splice xs pos ((List.range n).map f) := by
  induction n with
  | zero =>
    rw [List.range_zero, List.foldl_nil, List.map_nil, splice, List.append_nil, List.length_nil, Nat.add_zero,
      List.take_append_drop]
  | succ n ih =>
    have hlen : ∀ k, ((List.range k).map f).length = k := fun k => by rw [List.length_map, List.length_range]
    rw [List.range_succ, List.foldl_append, List.foldl_cons, List.foldl_nil, ih (by omega)]
    refine List.ext_getElem? fun i => ?_
    rw [← List.range_succ, getElem?_splice (by rw [hlen]; exact h), hlen]
    by_cases hi : i = pos + n
    · subst hi
      rw [List.getElem?_set_self (by rw [length_splice (by rw [hlen]; omega)]; omega), if_pos (by omega),
        Nat.add_sub_cancel_left, List.getElem?_map, List.getElem?_range (by omega)]
      rfl
    · rw [List.getElem?_set_ne (Ne.symm hi), getElem?_splice (by rw [hlen]; omega), hlen]
      by_cases hin : pos ≤ i ∧ i < pos + n
      · rw [if_pos hin, if_pos (by omega), List.getElem?_map, List.getElem?_map, List.getElem?_range (by omega),
          List.getElem?_range (by omega)]
      · rw [if_neg hin, if_neg (by omega)]

theorem foldlM_index {τ β : Type} (P : Nat → τ → Prop) {f : τ → β → Option τ} (xs : List β)
    (h : ∀ n x st, xs[n]? = some x → P n st → ∃ st', f st x = some st' ∧ P (n + 1) st') (st : τ) (hst : P 0 st) :
    ∃ st', xs.foldlM f st = some st' ∧ P xs.length st' := by
  induction xs generalizing P st with
  | nil => exact ⟨st, rfl, hst⟩
  | cons x xs ih =>
    obtain ⟨st', hf, hst'⟩ := h 0 x st rfl hst
    obtain ⟨st'', hrest, hst''⟩ := ih (fun n => P (n + 1)) (fun n y => h (n + 1) y) st' hst'
    exact ⟨st'', by rw [List.foldlM_cons, hf]; exact hrest, hst''⟩

section

variable {κ σ ω : Type} {e : Emit κ} {l : Layout κ}

/-- The target of a branch in its code. -/
def targetOf (e : Emit κ) (key : κ) : List UInt8 := targetBytes ((e.labels key).getD 0)

/-- The chunks when the first `N` branches have their targets. -/
structure Patched (e : Emit κ) (l : Layout κ) (N : Nat) (cs : List (List UInt8)) : Prop where
  length : cs.length = l.items.length
  start : ∀ i, Chunks.start cs i = l.start i
  plain : ∀ {i : Nat} {o args}, l.items[i]? = some (Item.plain o args) → cs[i]? = some (o :: args)
  branch : ∀ {i : Nat} {o key args}, l.items[i]? = some (Item.branch o key args) →
    ∃ hole, hole.length = 5 ∧ cs[i]? = some ([o] ++ (hole ++ args)) ∧
      ∀ n : Nat, n < N → e.fixups[n]? = some ⟨l.start i + 1, key, false⟩ → hole = targetOf e key

theorem patched_zero (e : Emit κ) (l : Layout κ) : Patched e l 0 l.chunks where
  length := l.chunks_length
  start := fun _ => rfl
  plain := fun hi => Layout.chunk hi
  branch := fun hi => ⟨placeholder, rfl, Layout.chunk hi, fun n hn => absurd hn (by omega)⟩

/-- One turn of `backpatch`. -/
theorem Patched.turn (h : Laid e l) {isa : Isa} (hl : l.Sound isa) {N : Nat} {f : Fixup κ} (hf : e.fixups[N]? = some f)
    {cs : List (List UInt8)} (hcs : Patched e l N cs) :
    ∃ cs', Emit.backpatchTurn { e with code := cs.flatten } f = some { e with code := cs'.flatten } ∧
      Patched e l (N + 1) cs' := by
  unfold Emit.backpatchTurn
  by_cases hdead : f.dead = true
  · rw [if_pos hdead]
    refine ⟨cs, rfl, hcs.length, hcs.start, hcs.plain, fun hi => ?_⟩
    obtain ⟨hole, hlen, hget, hpatched⟩ := hcs.branch hi
    refine ⟨hole, hlen, hget, fun n hn hfix => ?_⟩
    by_cases hnN : n = N
    · subst hnN
      obtain rfl := Option.some.inj (hf.symm.trans hfix)
      cases hdead
    · exact hpatched n (by omega) hfix
  · rw [if_neg hdead]
    have hlive : f.dead = false := Bool.eq_false_iff.mpr hdead
    obtain ⟨i, o, args, hi, hpos⟩ := h.live hf hlive
    obtain ⟨t, ht⟩ := Option.isSome_iff_exists.mp (hl.closed hi)
    have hlabel : e.labels f.target = some (l.start t) := by rw [h.labels, ht, Option.map_some]
    obtain ⟨hole, hlen, hget, -⟩ := hcs.branch hi
    have htext := congrArg List.length (Chunks.flatten_split hget)
    have hstart : (cs.take i).flatten.length = l.start i := hcs.start i
    simp only [List.length_append, List.length_singleton, hstart, hlen] at htext
    have hsplice := Chunks.splice_flatten hget (targetBytes (l.start t)) (by rw [targetBytes_length, hlen])
    rw [List.length_singleton, hcs.start, ← hpos] at hsplice
    refine ⟨cs.set i ([o] ++ (targetBytes (l.start t) ++ args)), ?_, ?_⟩
    · dsimp only [Option.bind_eq_bind]
      rw [hlabel, Option.bind_some, foldl_set _ _ _ _ (by rw [htext]; change _ + 5 ≤ _; omega), ← targetBytes, hsplice]
    · have hlt : i < cs.length := (List.getElem?_eq_some_iff.mp hget).1
      refine ⟨by rw [List.length_set, hcs.length], fun x => ?_, fun {x r as} hx => ?_, fun {x r k as} hx => ?_⟩
      · by_cases hxi : x ≤ i
        · rw [Chunks.start_set_le _ hxi, hcs.start]
        · have hset := Chunks.start_set_gt hget ([o] ++ (targetBytes (l.start t) ++ args)) (show i < x by omega)
          simp only [List.length_append, hlen, targetBytes_length] at hset
          have hold := hcs.start x
          omega
      · have hxi : x ≠ i := by
          rintro rfl
          rw [hi] at hx
          cases hx
        rw [List.getElem?_set_ne (Ne.symm hxi)]
        exact hcs.plain hx
      · by_cases hxi : x = i
        · subst hxi
          rw [hi] at hx
          cases hx
          refine ⟨_, targetBytes_length _, List.getElem?_set_self hlt, fun n _ _ => ?_⟩
          rw [targetOf, hlabel, Option.getD_some]
        · obtain ⟨hole', hlen', hget', hpatched⟩ := hcs.branch hx
          refine ⟨hole', hlen', by rw [List.getElem?_set_ne (Ne.symm hxi), hget'], fun n hn hfix => ?_⟩
          by_cases hnN : n = N
          · subst hnN
            obtain rfl := Option.some.inj (hf.symm.trans hfix)
            have hsame : l.start x = l.start i := Nat.add_right_cancel hpos
            exact absurd ((Layout.start_inj (Nat.le_of_lt (Layout.lt_length hx))
              (Nat.le_of_lt (Layout.lt_length hi))).mp hsame) hxi
          · exact hpatched n (by omega) hfix

/-- **`backpatch`.** -/
theorem backpatch_spec (h : Laid e l) {isa : Isa} (hl : l.Sound isa) :
    ∃ cs, e.backpatch = some { e with code := cs.flatten } ∧ Patched e l e.fixups.length cs := by
  let P : Nat → Emit κ → Prop := fun N st => ∃ cs, st = { e with code := cs.flatten } ∧ Patched e l N cs
  obtain ⟨st, hst, cs, rfl, hcs⟩ := foldlM_index P e.fixups (fun N f st hf hP => by
    obtain ⟨cs, rfl, hcs⟩ := hP
    obtain ⟨cs', hturn, hcs'⟩ := hcs.turn h hl hf
    exact ⟨_, hturn, cs', rfl, hcs'⟩) e ⟨l.chunks, by rw [← h.code], patched_zero e l⟩
  exact ⟨cs, hst, hcs⟩

/-- A reader finds the items, and the starts of those that branches go to. -/
theorem decode_patched (h : Laid e l) {isa : Isa} (hl : l.Sound isa) (hlen : e.code.length < 2 ^ 34)
    {cs : List (List UInt8)} (hcs : Patched e l e.fixups.length cs) (i : Nat) :
    decode isa cs.flatten (l.start i) = (l.graph i).map (Point.map l.start) := by
  unfold decode
  rw [← hcs.start]
  cases hitem : l.items[i]? with
  | none =>
    have hle : cs.flatten.length ≤ Chunks.start cs i := by
      rw [← Chunks.start_length, hcs.length]
      exact Chunks.start_le (List.getElem?_eq_none_iff.mp hitem)
    rw [List.drop_eq_nil_of_le hle]
    unfold Layout.graph
    rw [hitem]
    rfl
  | some item =>
    cases item with
    | plain o args =>
      obtain ⟨hbranch, hargs⟩ := hl.shaped hitem
      have hnext : l.start (i + 1) = l.start i + (args.length + 1) := Layout.start_succ hitem
      rw [Chunks.drop_start (hcs.plain hitem), List.cons_append]
      dsimp only
      rw [hbranch, if_neg (by decide), isa.operands_append o args hargs, Layout.graph_plain hitem, hcs.start]
      unfold Point.map
      dsimp only [Option.map_some, Option.map_none]
      rw [hnext, Nat.add_assoc, Nat.add_comm 1]
    | branch o key args =>
      obtain ⟨hbranch, hargs⟩ := hl.shaped hitem
      obtain ⟨hole, -, hget, hpatched⟩ := hcs.branch hitem
      obtain ⟨n, hn⟩ := h.covered hitem
      obtain rfl := hpatched n (List.getElem?_eq_some_iff.mp hn).1 hn
      obtain ⟨t, ht⟩ := Option.isSome_iff_exists.mp (hl.closed hitem)
      have hnext : l.start (i + 1) = l.start i + ((placeholder ++ args).length + 1) := Layout.start_succ hitem
      have hbelow : l.start t < 2 ^ 34 := by
        have hle := l.start_le (h.placed ht)
        rw [← l.chunks_length, Layout.start, Layout.start, Chunks.start_length, ← h.code] at hle
        exact Nat.lt_of_le_of_lt hle hlen
      have htarget : targetOf e key = targetBytes (l.start t) := by
        rw [targetOf, h.labels, ht, Option.map_some, Option.getD_some]
      obtain ⟨hfirst, hsigned⟩ := targetBytes_read hbelow (args ++ (cs.drop (i + 1)).flatten)
      rw [Chunks.drop_start hget, htarget, List.append_assoc, List.append_assoc, List.singleton_append]
      dsimp only
      rw [if_pos hbranch, hfirst, Option.bind_some, hsigned, if_neg (by omega), List.drop_left,
        isa.operands_append o args hargs, Layout.graph_branch hitem ht, hcs.start, targetBytes_length]
      unfold Point.map
      dsimp only [Option.map_some]
      rw [hnext, List.length_append, show placeholder.length = 5 from rfl, Int.toNat_natCast]
      congr 2
      omega

/-- **The same is seen in the code as in the layout.** -/
theorem backpatch_same {isa : Isa} {m : Machine Instr σ ω} {cfg : Peephole} (hfits : Fits isa m cfg) (h : Laid e l)
    (hl : l.Sound isa) (hlen : e.code.length < 2 ^ 34) :
    ∃ e', e.backpatch = some e' ∧ e'.code.length = e.code.length ∧ Same m l.graph 0 (decode isa e'.code) 0 := by
  obtain ⟨cs, hback, hcs⟩ := backpatch_spec h hl
  refine ⟨_, hback, ?_, ?_⟩
  · dsimp only
    rw [← Chunks.start_length, hcs.length, hcs.start, h.code, ← Chunks.start_length, l.chunks_length]
    rfl
  · refine same_of_map (fun i => i ≤ l.items.length) l.start (fun i _ => decode_patched h hl hlen hcs i)
      (hl.jumps hfits).targets (fun i p hi hp => ?_) (Nat.zero_le _)
    obtain ⟨hitem, hnone, hnext⟩ | ⟨key, t, hitem, hplace, htarget, hnext⟩ := Layout.of_graph hp
    · refine ⟨by rw [hnext]; exact Layout.lt_length hitem, fun t ht => ?_⟩
      rw [hnone] at ht
      cases ht
    · refine ⟨by rw [hnext]; exact Layout.lt_length hitem, fun t' ht' => ?_⟩
      rw [htarget] at ht'
      obtain rfl := Option.some.inj ht'
      exact h.placed hplace

end

end Bbq.Bytecode
