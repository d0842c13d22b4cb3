import Bbq.Writer.Holes
import Bbq.Writer.Prefix
import Bbq.Zcow.Bits

/-!
# Prefixes are read as they are patched

* `countLinked_eq`, `sizeLinked_eq`: the pass hands the patch the type of the field that is reserved.
* `countOpen_room`, `reached_inside`: over a run, a hole stays in the buffer.
* **`patched_as_read_iff`**: what is patched is read back exactly where the number fits the type and the byte order that is
  patched is the one in force. The patch functions check neither.
-/

namespace Bbq.Writer

open Cek Leb128

/-! ## The pass -/

/-- The reads that reserve a count. -/
def Reserves (ops : List WriteOp) (id : Nat) (p : PrimJson) : Prop := ∃ target rest, .read target p rest (some id) ∈ ops

/-- The arrays that patch one. -/
def PatchesCount (ops : List WriteOp) (id : Nat) (p : PrimJson) : Prop := ∃ count, .arrayBegin count (some (id, p)) ∈ ops

/-- The last window closed is the last opened, and so on: `Matched` of the operations last first. -/
def Matched : List WriteOp → Prop
  | [] => True
  | .popInterval (some p) :: ops => (openRests ops).head? = some p ∧ Matched ops
  | _ :: ops => Matched ops

/-- What holds of the pass on its way. -/
structure Derived (d : Derive) : Prop where
  reserved : ∀ id p, Reserves d.done id p → id < d.countSeq
  patched : ∀ id p, PatchesCount d.done id p → id < d.countSeq
  linked : ∀ id p p', Reserves d.done id p → PatchesCount d.done id p' → p = p'
  stack : openRests d.done = d.restStack.reduceOption
  fresh : ∀ target p rest countId ops, d.done = .read target p rest countId :: ops → rest = false
  matched : Matched d.done

/-- An operation, and what it is once the count of a read is marked. -/
inductive Marked (id : Nat) (p : PrimJson) : WriteOp → WriteOp → Prop
  | same (op : WriteOp) : Marked id p op op
  | read (target : String) (rest : Bool) (countId : Option Nat) :
    Marked id p (.read target p rest countId) (.read target p rest (some id))

section

variable {d : Derive} {ops ops' : List WriteOp} {field : String} {id : Nat} {p : PrimJson}

theorem marked_refl : List.Forall₂ (Marked id p) ops ops := List.forall₂_same.2 fun op _ => .same op

theorem markCount_marked (h : markCount field id ops = some (ops', p)) : List.Forall₂ (Marked id p) ops ops' := by
  induction ops generalizing ops' with
  | nil => cases h
  | cons op ops ih =>
    cases op with
    | read target prim rest countId =>
      rw [markCount] at h
      split at h
      case isTrue => cases h; exact .cons (.read target rest countId) marked_refl
      case isFalse =>
        obtain ⟨⟨_, _⟩, hrest, heq⟩ := Option.map_eq_some_iff.1 h
        cases heq
        exact .cons (.same _) (ih hrest)
    | _ =>
      obtain ⟨⟨_, _⟩, hrest, heq⟩ := Option.map_eq_some_iff.1 h
      cases heq
      exact .cons (.same _) (ih hrest)

section

variable (h : List.Forall₂ (Marked id p) ops ops')

include h

theorem reserves_of_marked {id' : Nat} {q : PrimJson} (hr : Reserves ops' id' q) :
    Reserves ops id' q ∨ id' = id ∧ q = p := by
  obtain ⟨target, rest, hmem⟩ := hr
  induction h with
  | nil => cases hmem
  | cons hop _ ih =>
    obtain heq | hmem := List.mem_cons.1 hmem
    · cases hop with
      | same => exact .inl ⟨target, rest, heq ▸ List.mem_cons_self⟩
      | read => cases heq; exact .inr ⟨rfl, rfl⟩
    · exact (ih hmem).imp_left fun ⟨t, r, hin⟩ => ⟨t, r, List.mem_cons_of_mem _ hin⟩

theorem patchesCount_of_marked {id' : Nat} {q : PrimJson} (hr : PatchesCount ops' id' q) : PatchesCount ops id' q := by
  obtain ⟨count, hmem⟩ := hr
  induction h with
  | nil => cases hmem
  | cons hop _ ih =>
    obtain heq | hmem := List.mem_cons.1 hmem
    · cases hop with
      | same => exact ⟨count, heq ▸ List.mem_cons_self⟩
      | read => cases heq
    · obtain ⟨c, hin⟩ := ih hmem
      exact ⟨c, List.mem_cons_of_mem _ hin⟩

theorem openRests_marked : openRests ops' = openRests ops := by
  induction h with
  | nil => rfl
  | @cons op _ _ _ hop _ ih =>
    cases hop with
    | same =>
      cases op with
      | read target prim rest countId => cases rest <;> simp [openRests, ih]
      | popInterval rest => cases rest <;> simp [openRests, ih]
      | _ => exact ih
    | read target rest countId => cases rest <;> simp [openRests, ih]

theorem matched_marked (hm : Matched ops) : Matched ops' := by
  induction h with
  | nil => trivial
  | @cons op _ _ _ hop hrest ih =>
    cases hop with
    | same =>
      cases op with
      | popInterval rest =>
        cases rest with
        | none => exact ih hm
        | some q => exact ⟨(openRests_marked hrest).symm ▸ hm.1, ih hm.2⟩
      | _ => exact ih hm
    | read => exact ih hm

end

/-- An operation that neither reserves nor patches a count. -/
theorem derived_cons (hd : Derived d) {op : WriteOp} {stack : List (Option PrimJson)}
    (hread : ∀ target q rest i, op ≠ .read target q rest (some i)) (harray : ∀ count x, op ≠ .arrayBegin count (some x))
    (hstack : openRests (op :: d.done) = stack.reduceOption)
    (hfresh : ∀ target q rest countId, op = .read target q rest countId → rest = false) (hm : Matched (op :: d.done)) :
    Derived { d with done := op :: d.done, restStack := stack } := by
  have hreserves : ∀ i q, Reserves (op :: d.done) i q → Reserves d.done i q := by
    rintro i q ⟨target, rest, hmem⟩
    obtain heq | hmem := List.mem_cons.1 hmem
    · exact absurd heq.symm (hread target q rest i)
    · exact ⟨target, rest, hmem⟩
  have hpatches : ∀ i q, PatchesCount (op :: d.done) i q → PatchesCount d.done i q := by
    rintro i q ⟨count, hmem⟩
    obtain heq | hmem := List.mem_cons.1 hmem
    · exact absurd heq.symm (harray count (i, q))
    · exact ⟨count, hmem⟩
  exact
    { reserved := fun i q hr => hd.reserved i q (hreserves i q hr)
      patched := fun i q hp => hd.patched i q (hpatches i q hp)
      linked := fun i q q' hr hp => hd.linked i q q' (hreserves i q hr) (hpatches i q' hp)
      stack := hstack
      fresh := fun target q rest countId _ heq => hfresh target q rest countId (List.cons.inj heq).1
      matched := hm }

/-- An array whose count is found. -/
theorem derived_array (hd : Derived d) (hmark : markCount field d.countSeq d.done = some (ops', p))
    (count : Option ExprJson) :
    Derived { d with done := .arrayBegin count (some (d.countSeq, p)) :: ops', countSeq := d.countSeq + 1 } := by
  have hmarked := markCount_marked hmark
  have hreserves : ∀ i q, Reserves (.arrayBegin count (some (d.countSeq, p)) :: ops') i q →
      Reserves d.done i q ∨ i = d.countSeq ∧ q = p := by
    rintro i q ⟨target, rest, hmem⟩
    obtain heq | hmem := List.mem_cons.1 hmem
    · cases heq
    · exact reserves_of_marked hmarked ⟨target, rest, hmem⟩
  have hpatches : ∀ i q, PatchesCount (.arrayBegin count (some (d.countSeq, p)) :: ops') i q →
      PatchesCount d.done i q ∨ i = d.countSeq ∧ q = p := by
    rintro i q ⟨count', hmem⟩
    obtain heq | hmem := List.mem_cons.1 hmem
    · cases heq; exact .inr ⟨rfl, rfl⟩
    · exact .inl (patchesCount_of_marked hmarked ⟨count', hmem⟩)
  refine ⟨fun i q hr => ?_, fun i q hp => ?_, fun i q q' hr hp => ?_, ?_, fun _ _ _ _ _ heq => ?_, ?_⟩
  · obtain hr | ⟨rfl, -⟩ := hreserves i q hr
    · exact Nat.lt_succ_of_lt (hd.reserved i q hr)
    · exact Nat.lt_succ_self _
  · obtain hp | ⟨rfl, -⟩ := hpatches i q hp
    · exact Nat.lt_succ_of_lt (hd.patched i q hp)
    · exact Nat.lt_succ_self _
  · -- an id is given to one read and one array, and both are marked with its type
    obtain hold | ⟨hi, hq⟩ := hreserves i q hr <;> obtain hold' | ⟨hi', hq'⟩ := hpatches i q' hp
    · exact hd.linked i q q' hold hold'
    · exact absurd (hd.reserved i q hold) (by omega)
    · exact absurd (hd.patched i q' hold') (by omega)
    · exact hq.trans hq'.symm
  · exact (openRests_marked hmarked).trans hd.stack
  · cases heq
  · exact (matched_marked hmarked hd.matched :)

/-- A window whose length has just been read. -/
theorem derived_rest (hd : Derived d) {target : String} {rest : Bool} {countId : Option Nat} {expr : ExprJson}
    (hdone : d.done = .read target p rest countId :: ops) :
    Derived
      { d with
        done := .pushInterval true expr true :: .read target p true countId :: ops
        restStack := some p :: d.restStack } := by
  obtain rfl := hd.fresh _ _ _ _ _ hdone
  have hreserves : ∀ i q, Reserves (.pushInterval true expr true :: .read target p true countId :: ops) i q →
      Reserves d.done i q := by
    rintro i q ⟨target', rest, hmem⟩
    rw [hdone]
    obtain heq | hmem := List.mem_cons.1 hmem
    · cases heq
    · obtain heq | hmem := List.mem_cons.1 hmem
      · cases heq; exact ⟨target, false, List.mem_cons_self⟩
      · exact ⟨target', rest, List.mem_cons_of_mem _ hmem⟩
  have hpatches : ∀ i q, PatchesCount (.pushInterval true expr true :: .read target p true countId :: ops) i q →
      PatchesCount d.done i q := by
    rintro i q ⟨count, hmem⟩
    rw [hdone]
    simp only [List.mem_cons, reduceCtorEq, false_or] at hmem
    exact ⟨count, List.mem_cons_of_mem _ hmem⟩
  have hstack := hd.stack
  have hmatched := hd.matched
  rw [hdone] at hstack hmatched
  exact
    { reserved := fun i q hr => hd.reserved i q (hreserves i q hr)
      patched := fun i q hp => hd.patched i q (hpatches i q hp)
      linked := fun i q q' hr hp => hd.linked i q q' (hreserves i q hr) (hpatches i q' hp)
      stack := congrArg (p :: ·) hstack
      fresh := (fun _ _ _ _ _ heq => by cases heq)
      matched := hmatched }

/-- **Step lemma** of the pass. -/
theorem derived_step (hd : Derived d) {op : WriteOp} (hop : op.plain = true) : Derived (d.step op) := by
  cases op with
  | read target q rest countId =>
    simp only [WriteOp.plain, Bool.and_eq_true, Bool.not_eq_true', Option.isNone_iff_eq_none] at hop
    obtain ⟨rfl, rfl⟩ := hop
    exact derived_cons hd (by simp) (by simp) hd.stack (by simp) hd.matched
  | other => exact derived_cons hd (by simp) (by simp) hd.stack (by simp) hd.matched
  | pushInterval relative expr rest =>
    have hnone : Derived { d with done := .pushInterval relative expr rest :: d.done, restStack := none :: d.restStack } :=
      derived_cons hd (by simp) (by simp) hd.stack (by simp) hd.matched
    unfold Derive.step
    dsimp only
    split
    case h_1 name target q rest countId done hdone =>
      split
      case isTrue => exact derived_rest hd hdone
      case isFalse => exact hdone ▸ hnone
    case h_2 => exact hnone
  | popInterval rest =>
    obtain rfl : rest = none := Option.isNone_iff_eq_none.1 hop
    rw [Derive.step]
    have hstack := hd.stack
    split
    case h_1 hnil => exact derived_cons hd (by simp) (by simp) (hstack.trans (by rw [hnil])) (by simp) hd.matched
    case h_2 prim stack hcons =>
      rw [hcons] at hstack
      cases prim with
      | none => exact derived_cons hd (by simp) (by simp) hstack (by simp) hd.matched
      | some q =>
        refine derived_cons hd (by simp) (by simp) ?_ (by simp) ⟨?_, hd.matched⟩
        · exact congrArg List.tail hstack
        · exact congrArg List.head? hstack
  | arrayBegin count patch =>
    obtain rfl : patch = none := Option.isNone_iff_eq_none.1 hop
    rw [Derive.step]
    split
    case h_1 => exact derived_cons hd (by simp) (by simp) hd.stack (by simp) hd.matched
    case h_2 ops q hfound =>
      obtain ⟨field, -, hmark⟩ := Option.bind_eq_some_iff.1 hfound
      exact derived_array hd hmark count

/-- **Run lemma** of the pass. -/
theorem derived_run {rest : List WriteOp} (hd : Derived d) (hops : ∀ op ∈ rest, op.plain = true) :
    Derived (rest.foldl Derive.step d) := by
  induction rest generalizing d with
  | nil => exact hd
  | cons op rest ih =>
    obtain ⟨hop, hrest⟩ := List.forall_mem_cons.1 hops
    exact ih (derived_step hd hop) hrest

theorem derived_init : Derived ⟨[], 0, []⟩ :=
  { reserved := (fun _ _ ⟨_, _, h⟩ => nomatch h)
    patched := (fun _ _ ⟨_, h⟩ => nomatch h)
    linked := (fun _ _ _ ⟨_, _, h⟩ => nomatch h)
    stack := rfl
    fresh := (fun _ _ _ _ _ h => nomatch h)
    matched := trivial }

variable {read patch : PrimJson}

/-- A count is patched as the type of the field that is reserved. -/
theorem countLinked_eq (hops : ∀ op ∈ ops, op.plain = true) (h : CountLinked ops read patch) : read = patch := by
  obtain ⟨id, target, rest, count, hread, harray⟩ := h
  have hd := derived_run derived_init hops
  exact hd.linked id read patch ⟨target, rest, List.mem_reverse.1 hread⟩ ⟨count, List.mem_reverse.1 harray⟩

theorem matched_suffix {before after : List WriteOp} (hm : Matched (before ++ .popInterval (some p) :: after)) :
    (openRests after).head? = some p := by
  induction before with
  | nil => exact hm.1
  | cons op before ih =>
    cases op with
    | popInterval rest =>
      cases rest with
      | none => exact ih hm
      | some q => exact ih hm.2
    | _ => exact ih hm

/-- So is the size of a `@rest`. -/
theorem sizeLinked_eq (hops : ∀ op ∈ ops, op.plain = true) (h : SizeLinked ops read patch) : read = patch := by
  obtain ⟨before, after, hsplit, hhead⟩ := h
  have hm := (derived_run derived_init hops).matched
  rw [← List.reverse_reverse (ops.foldl Derive.step ⟨[], 0, []⟩).done,
    show (ops.foldl Derive.step ⟨[], 0, []⟩).done.reverse = _ from hsplit, List.reverse_append, List.reverse_cons,
    List.append_assoc] at hm
  exact Option.some.inj (hhead.symm.trans (matched_suffix hm))

end

/-! ## Holes over a run -/

section

variable {w w' : Writer} {id : Nat} {f : Form}

theorem length_overwrite (data : List UInt8) (start : Nat) (bs : List UInt8) :
    (overwrite data start bs).length = data.length := by
  induction bs generalizing data start with
  | nil => rfl
  | cons b bs ih => rw [overwrite, ih, List.length_set]

theorem length_insertAt (data : List UInt8) (start : Nat) (bs : List UInt8) :
    (insertAt data start bs).length = data.length + bs.length := by
  simp only [insertAt, List.length_append, List.length_take, List.length_drop]
  omega

/-- The hole of a count is recorded, and what was left for it is in the buffer. -/
def HasRoom (id : Nat) (f : Form) (w : Writer) : Prop :=
  ∃ hole, w.countHoles[id]? = some hole ∧ hole + (Key.count id f).room.length ≤ w.data.length

/-- The sizes of the open `@rest`s are recorded in the buffer. -/
def RestsInside (w : Writer) : Prop := ∀ hole ∈ w.restHoles, hole ≤ w.data.length

theorem reserveCount_room (h : w.reserveCount id f = some w') : HasRoom id f w' := by
  obtain ⟨zeros, hlt, heq⟩ := reserveCount_eq w id f
  rw [heq] at h
  split at h
  · cases h
    exact ⟨w.data.length, List.getElem?_set_self hlt, by rw [List.length_append]⟩
  · cases h

theorem hasRoom_step {o : Op} (hroom : HasRoom id f w) (ho : o.reserves id = false) (h : w.step o = some w') :
    HasRoom id f w' := by
  obtain ⟨hole, hhole, hle⟩ := hroom
  cases o with
  | write bs =>
    obtain ⟨-, rfl⟩ : _ ∧ _ = w' := by simpa [step, write] using h
    exact ⟨hole, hhole, by rw [List.length_append]; omega⟩
  | reserveCount i g =>
    have hne : i ≠ id := by simpa [Op.reserves] using ho
    obtain ⟨zeros, hlt, heq⟩ := reserveCount_eq w i g
    rw [step, heq] at h
    split at h
    · cases h
      refine ⟨hole, ?_, by rw [List.length_append]; omega⟩
      rw [List.getElem?_set_ne hne, List.getElem?_append_left (List.getElem?_eq_some_iff.1 hhole).1]
      exact hhole
    · cases h
  | patchCount i v g little =>
    rw [step, patchCount] at h
    split at h
    · cases h
    · dsimp only at h
      split at h
      · split at h
        · cases h
          -- the hole moves at most as far as what is inserted
          refine ⟨_, by rw [List.getElem?_mapIdx, hhole]; rfl, ?_⟩
          rw [length_insertAt]
          dsimp only
          split <;> omega
        · cases h
      · cases h
        exact ⟨hole, hhole, by rw [length_overwrite]; exact hle⟩
  | pushRest => cases h; exact ⟨hole, hhole, hle⟩
  | patchRest g little =>
    rw [step, patchRest] at h
    split at h
    · cases h
    · dsimp only at h
      split at h
      · cases h
        exact ⟨hole, hhole, by rw [length_insertAt]; omega⟩
      · cases h

theorem restsInside_step {o : Op} (hin : RestsInside w) (h : w.step o = some w') : RestsInside w' := by
  cases o with
  | write bs =>
    obtain ⟨-, rfl⟩ : _ ∧ _ = w' := by simpa [step, write] using h
    exact fun hole hhole => (hin hole hhole).trans (by rw [List.length_append]; omega)
  | reserveCount i g =>
    obtain ⟨zeros, -, heq⟩ := reserveCount_eq w i g
    rw [step, heq] at h
    split at h
    · cases h
      exact fun hole hhole => (hin hole hhole).trans (by rw [List.length_append]; omega)
    · cases h
  | patchCount i v g little =>
    rw [step, patchCount] at h
    split at h
    · cases h
    · dsimp only at h
      split at h
      · split at h
        · cases h
          intro hole hhole
          obtain ⟨m, hm, rfl⟩ := List.mem_map.1 hhole
          have := hin m hm
          rw [length_insertAt]
          split <;> omega
        · cases h
      · cases h
        exact fun hole hhole => (hin hole hhole).trans (by rw [length_overwrite])
  | pushRest =>
    cases h
    intro hole hhole
    obtain rfl | hhole := List.mem_cons.1 hhole
    · exact Nat.le_refl _
    · exact hin hole hhole
  | patchRest g little =>
    rw [step, patchRest] at h
    split at h
    · cases h
    · rename_i hole outer hcons
      dsimp only at h
      split at h
      · cases h
        intro m hm
        rw [length_insertAt]
        exact (hin m (hcons ▸ List.mem_cons_of_mem _ hm)).trans (Nat.le_add_right _ _)
      · cases h

theorem run_append {ops ops' : List Op} : w.run (ops ++ ops') = (w.run ops).bind fun w' => w'.run ops' := by
  induction ops generalizing w with
  | nil => rfl
  | cons o ops ih =>
    rw [List.cons_append, run, run, Option.bind_assoc]
    exact Option.bind_congr fun _ _ => ih

theorem hasRoom_run {ops : List Op} (hroom : HasRoom id f w) (hops : ∀ o ∈ ops, o.reserves id = false)
    (h : w.run ops = some w') : HasRoom id f w' := by
  induction ops generalizing w with
  | nil => cases h; exact hroom
  | cons o ops ih =>
    obtain ⟨ho, hops⟩ := List.forall_mem_cons.1 hops
    obtain ⟨w₁, hstep, hrest⟩ := Option.bind_eq_some_iff.1 h
    exact ih (hasRoom_step hroom ho hstep) hops hrest

/-- A count that is open has its hole in the buffer. -/
theorem countOpen_room (h : CountOpen w id f) : HasRoom id f w := by
  obtain ⟨capacity, before, calls, hcalls, hrun⟩ := h
  rw [run_append] at hrun
  obtain ⟨w₁, -, hrest⟩ := Option.bind_eq_some_iff.1 hrun
  obtain ⟨w₂, hreserve, hrest⟩ := Option.bind_eq_some_iff.1 hrest
  exact hasRoom_run (reserveCount_room hreserve) hcalls hrest

/-- So has every `@rest`. -/
theorem reached_inside (h : Reached w) : RestsInside w := by
  obtain ⟨capacity, calls, hrun⟩ := h
  have hinit : RestsInside (init capacity) := (fun _ hmem => nomatch hmem)
  revert hrun hinit
  generalize init capacity = w₀
  intro hrun hinit
  induction calls generalizing w₀ with
  | nil => cases hrun; exact hinit
  | cons o calls ih =>
    obtain ⟨w₁, hstep, hrest⟩ := Option.bind_eq_some_iff.1 hrun
    exact ih w₁ hrest (restsInside_step hinit hstep)

/-! ## The bytes -/

/-- A patched count stands where the hole was. -/
theorem patchCount_data {hole : Nat} {v : UInt64} {little : Bool} (hroom : HasRoom id f w)
    (hhole : w.countHoles[id]? = some hole) (h : w.patchCount id v f little = some w') :
    ∃ before after, before.length = hole ∧ w'.data = before ++ f.encode v little ++ after := by
  obtain ⟨_, hhole', hle⟩ := hroom
  obtain rfl := Option.some.inj (hhole.symm.trans hhole')
  have hlen : (w.data.take hole).length = hole := by
    rw [List.length_take]
    omega
  rw [patchCount, hhole] at h
  dsimp only at h
  split at h
  case isTrue =>
    split at h
    · cases h
      exact ⟨_, _, hlen, rfl⟩
    · cases h
  case isFalse hf =>
    cases h
    have henc : (f.encode v little).length = f.width / 8 := by rw [Form.encode, if_neg hf, length_fixedBytes]
    have hroom : (Key.count id f).room.length = f.width / 8 := by rw [Key.room, if_neg hf, List.length_replicate]
    have hsplit : w.data = w.data.take hole ++ (w.data.drop hole).take (f.width / 8) ++ w.data.drop (hole + f.width / 8) := by
      rw [List.append_assoc, ← List.drop_drop, List.take_append_drop, List.take_append_drop]
    refine ⟨w.data.take hole, w.data.drop (hole + f.width / 8), hlen, ?_⟩
    have hold : (f.encode v little).length = ((w.data.drop hole).take (f.width / 8)).length := by
      rw [henc, List.length_take, List.length_drop]
      omega
    have hover := overwrite_append (w.data.take hole) _ (w.data.drop (hole + f.width / 8)) hold
    rw [← hsplit, hlen] at hover
    exact hover

/-- So does a patched size. -/
theorem patchRest_data {hole : Nat} {outer : List Nat} {v : UInt64} {little : Bool} (hin : RestsInside w)
    (hholes : w.restHoles = hole :: outer) (hv : w.data.length = hole + v.toNat) (h : w.patchRest f little = some w') :
    ∃ before after, before.length = hole ∧ w'.data = before ++ f.encode v little ++ after := by
  have hle := hin hole (hholes ▸ List.mem_cons_self)
  have hsize : UInt64.ofNat (w.data.length - hole) = v := by rw [hv, Nat.add_sub_cancel_left, UInt64.ofNat_toNat]
  rw [patchRest, hholes] at h
  dsimp only at h
  rw [hsize] at h
  split at h
  · cases h
    exact ⟨_, _, by rw [List.length_take]; omega, rfl⟩
  · cases h

end

/-! ## Fixed widths -/

section

variable {v : UInt64} {n : Nat} {little order : Bool} {before after bs : List UInt8}

theorem fixedBytes_little : fixedBytes v n true = Zcow.wordBytes n v := by
  unfold fixedBytes Zcow.wordBytes
  simp [Nat.mul_comm]

theorem fixedBytes_big : fixedBytes v n false = (Zcow.wordBytes n v).reverse := by
  refine List.ext_getElem (by simp [fixedBytes, Zcow.wordBytes]) fun i h h' => ?_
  simp only [fixedBytes, Zcow.wordBytes, List.getElem_map, List.getElem_range, List.getElem_reverse, List.length_map,
    List.length_range, Bool.false_eq_true, if_false]
  rw [Nat.mul_comm]

/-- The number that is read of a patched one: cut to the width, or the bytes of a number that are the same in either
order. -/
theorem wordOf_fixedBytes (hn : n ≤ 8) :
    wordOf order (fixedBytes v n little) = v.toNat ↔
      v.toNat < 256 ^ n ∧ (order = little ∨ fixedBytes v n true = fixedBytes v n false) := by
  have hword := Zcow.leNat_wordBytes (w := v) hn
  have hlen : (Zcow.wordBytes n v).length = n := Zcow.length_wordBytes
  have hsame : wordOf little (fixedBytes v n little) = v.toNat % 256 ^ n := by
    cases little
    · rw [fixedBytes_big, wordOf, if_neg Bool.false_ne_true, List.reverse_reverse, hword]
    · rw [fixedBytes_little, wordOf, if_pos rfl, hword]
  by_cases horder : order = little
  · subst horder
    rw [hsame]
    simp only [true_or, and_true]
    exact ⟨fun h => h ▸ Nat.mod_lt _ (Nat.pow_pos (by decide)), Nat.mod_eq_of_lt⟩
  · have hother : wordOf order (fixedBytes v n little) = leNat (Zcow.wordBytes n v).reverse := by
      cases little <;> cases order
      · exact absurd rfl horder
      · rw [fixedBytes_big, wordOf, if_pos rfl]
      · rw [fixedBytes_little, wordOf, if_neg Bool.false_ne_true]
      · exact absurd rfl horder
    rw [hother, fixedBytes_little, fixedBytes_big]
    simp only [horder, false_or]
    constructor
    · intro h
      have hlt := Zcow.leNat_lt (Zcow.wordBytes n v).reverse
      have hlen8 : (Zcow.wordBytes n v).reverse.length ≤ 8 := by
        rw [List.length_reverse, hlen]
        exact hn
      have hbytes := Zcow.wordBytes_leNat hlen8 h.symm
      rw [List.length_reverse, hlen] at hlt hbytes
      exact ⟨h ▸ hlt, hbytes⟩
    · rintro ⟨hlt, hpal⟩
      rw [← hpal, hword, Nat.mod_eq_of_lt hlt]

/-- The cast to the signed type of the width keeps the numbers of its lower half. -/
theorem signExtend_eq {word : Nat} (hn : 0 < n) (hword : word < 256 ^ n) :
    signExtend n word = v.toNat ↔ word = v.toNat ∧ v.toNat < 2 ^ (8 * n - 1) := by
  have hpow : (2 : Nat) ^ (8 * n) = 256 ^ n := by rw [Nat.pow_mul]
  have hhalf : (2 : Nat) ^ (8 * n) = 2 * 2 ^ (8 * n - 1) := by rw [← Nat.pow_succ']; congr 1; omega
  rw [signExtend, Int.bmod_def, Int.emod_eq_of_lt (by omega) (by rw [hpow]; omega)]
  generalize 2 ^ (8 * n) = m at *
  split <;> omega

variable (before after bs) in
theorem bytesAt_middle : bytesAt (before ++ bs ++ after) before.length bs.length = bs := by
  rw [bytesAt, List.append_assoc, List.drop_left, List.take_left]

/-- The fixed-width reader at patched bytes. -/
theorem readFixed_patched {signed : Bool} (hn : 0 < n) (hn8 : n ≤ 8) :
    readFixed n signed order (at_ before (fixedBytes v n little) after) =
        some ((v.toNat : Int), before.length + (fixedBytes v n little).length) ↔
      v.toNat < 2 ^ (8 * n - if signed = true then 1 else 0) ∧
        (order = little ∨ fixedBytes v n true = fixedBytes v n false) := by
  have hlen := length_fixedBytes v n little
  have hin : ¬ (at_ before (fixedBytes v n little) after).pos + n > (at_ before (fixedBytes v n little) after).stop := by
    simp only [at_, List.length_append, hlen]
    omega
  have hbytes : bytesAt (at_ before (fixedBytes v n little) after).data before.length n = fixedBytes v n little := by
    have hmiddle := bytesAt_middle before after (fixedBytes v n little)
    rwa [hlen] at hmiddle
  have hpow : (256 : Nat) ^ n = 2 ^ (8 * n) := by rw [Nat.pow_mul]
  have hlt := Zcow.wordOf_lt order (fixedBytes v n little)
  have hword : wordOf order (fixedBytes v n little) = v.toNat ↔ _ := wordOf_fixedBytes hn8
  rw [hlen] at hlt
  rw [readFixed, if_neg hin, show (at_ before (fixedBytes v n little) after).pos = before.length from rfl, hbytes, hlen]
  simp only [Option.some.injEq, Prod.mk.injEq, and_true]
  cases signed with
  | false =>
    rw [hpow] at hword
    simpa using hword
  | true =>
    simp only [if_true]
    rw [signExtend_eq hn hlt, hword, hpow]
    have hle : 2 ^ (8 * n - 1) ≤ 2 ^ (8 * n) := Nat.pow_le_pow_right (by decide) (by omega)
    exact ⟨fun h => ⟨h.2, h.1.2⟩, fun h => ⟨⟨by omega, h.2⟩, h.1⟩⟩

end

/-! ## Varints -/

section

open Lib.Leb128

variable {v : UInt64} {n : Nat} {little : Bool} {before after bs : List UInt8} {width : LebWidth} {c : Cursor}

theorem width_eq : (if (carrier width).bits = 64 then 64 else 32) = width.bits := by cases width <;> rfl

variable (before after) in
/-- The unsigned reader at patched bytes. -/
theorem readUleb_patched :
    (C.readUleb128 (at_ before (C.writeUleb128 v) after) width.bits).map (fun x => ((x.1.toNat : Int), x.2.pos)) =
        some ((v.toNat : Int), before.length + (C.writeUleb128 v).length) ↔ v.toNat < 2 ^ width.bits := by
  have hread := congrArg (Option.map fun x : Nat × Nat => ((x.1 : Int), x.2))
    (C.readUleb128_eq (c := at_ before (C.writeUleb128 v) after) width.maxBytes_le)
  rw [Option.map_map, Option.map_map, at_rest, decodeUleb128_eq width.bits_le, C.writeUleb128_eq, Cpp.encodeUleb128_eq,
    first_append (first_encode _), Option.bind_some, value_encode] at hread
  rw [C.writeUleb128_eq, Cpp.encodeUleb128_eq]
  refine (Eq.congr_left hread).trans ?_
  constructor
  · intro h
    by_contra hlarge
    rw [if_neg fun h0 => hlarge h0.2] at h
    cases h
  · intro h
    have hlen : (encode v.toNat).length ≤ lebMaxBytes width.bits := by
      refine encode_length (Nat.lt_of_lt_of_le h ?_) ?_ <;> cases width <;> decide
    rw [if_pos ⟨hlen, h⟩]
    rfl

/-! A number in eight bits a byte is greater than in seven. -/

theorem value_le_leNat (bs : List UInt8) : value bs ≤ leNat bs := by
  induction bs with
  | nil => exact Nat.le_refl 0
  | cons b bs ih =>
    rw [value_cons, leNat]
    have := Nat.mod_le b.toNat 128
    omega

/-- A whole encoding of more than one byte starts with one that continues. -/
theorem continues_of_first {b : UInt8} (hbs : bs ≠ []) (h : first (b :: bs ++ after) = some (b :: bs)) : 128 ≤ b.toNat := by
  by_contra hlt
  rw [List.cons_append, first_cons_last (by omega), Option.some.injEq, List.cons.injEq] at h
  exact hbs h.2.symm

theorem value_lt_leNat {b : UInt8} (hb : 128 ≤ b.toNat) : value (b :: bs) < leNat (b :: bs) := by
  have := value_le_leNat bs
  rw [value_cons, leNat]
  omega

theorem value_lt_leNat_reverse {b : UInt8} (hb : 128 ≤ b.toNat) : value (b :: bs) < leNat (b :: bs).reverse := by
  have hlt := value_lt (b :: bs)
  have hpow : 128 ^ bs.length ≤ 256 ^ bs.length := Nat.pow_le_pow_left (by decide) _
  have hmul : 256 ^ bs.length * 128 ≤ 256 ^ bs.length * b.toNat := Nat.mul_le_mul_left _ hb
  rw [List.length_cons, Nat.pow_succ] at hlt
  rw [List.reverse_cons, leNat_concat, List.length_reverse]
  omega

theorem value_lt_wordOf {b : UInt8} (hb : 128 ≤ b.toNat) : value (b :: bs) < wordOf little (b :: bs) := by
  cases little with
  | true => exact value_lt_leNat hb
  | false => exact value_lt_leNat_reverse hb

theorem signed_le_value (g : List UInt8) (h : 0 ≤ signed g) : signed g ≤ value g := by
  have hlt := value_lt g
  rw [signed, Int.bmod_def] at h ⊢
  have := Int.emod_eq_of_lt (Int.natCast_nonneg (value g)) (Int.ofNat_lt.2 hlt)
  split at h <;> omega

theorem prefix_of_first {g : List UInt8} (h : first bs = some g) : g <+: bs := by
  induction bs generalizing g with
  | nil => cases h
  | cons b bs ih =>
    by_cases hb : b.toNat < 128
    · rw [first_cons_last hb] at h
      cases h
      exact ⟨bs, rfl⟩
    · rw [first_cons_more (by omega)] at h
      obtain ⟨g', hg', rfl⟩ := Option.map_eq_some_iff.1 h
      exact List.cons_prefix_cons.2 ⟨rfl, ih hg'⟩

/-- What the signed reader takes, and its value. -/
theorem signed_of_readSleb {x : Int} {stop : Nat}
    (h : (C.readSleb128 c width.bits).map (fun x => (x.1.toInt, x.2.pos)) = some (x, stop)) :
    ∃ g, first c.rest = some g ∧ signed g = x ∧ stop = c.pos + g.length := by
  have hread := congrArg (Option.map fun x : Int64 × Nat => (x.1.toInt, x.2)) (C.readSleb128_eq (c := c) width.bits_le)
  rw [Option.map_map, Option.map_map, decodeSleb128_eq] at hread
  obtain ⟨y, hy, heq⟩ := Option.map_eq_some_iff.1 (hread.symm.trans h)
  obtain ⟨g, hg, hif⟩ := Option.bind_eq_some_iff.1 hy
  split at hif
  case isTrue hin =>
    cases hif
    obtain ⟨hx, hstop⟩ := Prod.mk.inj heq
    exact ⟨g, hg, (ofInt_inRange hin.2).symm.trans hx, hstop.symm⟩
  case isFalse => cases hif

variable (v little before after width) in
/-- The signed reader never takes what is patched for a fixed width of more than one byte. -/
theorem readSleb_patched (hn : 1 < n) (hn8 : n ≤ 8) :
    (C.readSleb128 (at_ before (fixedBytes v n little) after) width.bits).map (fun x => (x.1.toInt, x.2.pos)) ≠
      some ((v.toNat : Int), before.length + (fixedBytes v n little).length) := by
  intro h
  obtain ⟨g, hfirst, hsigned, hstop⟩ := signed_of_readSleb h
  have hlen := length_fixedBytes v n little
  have hword : wordOf little (fixedBytes v n little) ≤ v.toNat := by
    have := Zcow.leNat_wordBytes (w := v) hn8
    cases little
    · rw [fixedBytes_big, wordOf, if_neg Bool.false_ne_true, List.reverse_reverse, this]
      exact Nat.mod_le _ _
    · rw [fixedBytes_little, wordOf, if_pos rfl, this]
      exact Nat.mod_le _ _
  rw [at_rest] at hfirst
  generalize fixedBytes v n little = bs at *
  have hglen : g.length = bs.length := by
    have : before.length + bs.length = before.length + g.length := hstop
    omega
  have hbs : g = bs :=
    (List.prefix_of_prefix_length_le (prefix_of_first hfirst) (List.prefix_append bs after) hglen.le).eq_of_length hglen
  subst hbs
  rcases g with _ | ⟨b, _ | ⟨b', rest⟩⟩
  · simp only [List.length_nil] at hlen
    omega
  · simp only [List.length_cons, List.length_nil] at hlen
    omega
  · have hb := continues_of_first (List.cons_ne_nil b' rest) hfirst
    have hlt : value (b :: b' :: rest) < wordOf little (b :: b' :: rest) := value_lt_wordOf hb
    have hle := signed_le_value (b :: b' :: rest) (by omega)
    omega

end

/-! ## What is patched is read -/

section

variable {t : IntType} {defaultLe : Bool} {directives : List Bool} {v : UInt64}

theorem json_fixed (width : Width) (sign : Signedness) (endian : Endianness) :
    (IntType.fixed width sign endian).json defaultLe =
      ⟨width.bits, sign = .signed, endian = .big || endian = .default && !defaultLe, endian = .default, .fixed⟩ := rfl

/-- The generated reader at patched bytes. -/
theorem readAt_iff {before after : List UInt8} :
    ReadAt (t.json defaultLe) (endianAfter defaultLe directives)
        (before ++ (t.json defaultLe).form.encode v (t.json defaultLe).little ++ after) before.length v
        ((t.json defaultLe).form.encode v (t.json defaultLe).little) ↔
      Fits defaultLe directives v t := by
  cases t with
  | fixed width sign endian =>
    have hbits : 0 < width.bits / 8 ∧ width.bits / 8 ≤ 8 ∧ 8 * (width.bits / 8) = width.bits := by cases width <;> decide
    refine (readFixed_patched hbits.1 hbits.2.1).trans ?_
    rw [hbits.2.2]
    rw [json_fixed]
    refine and_congr (by simp) ?_
    by_cases hnative : endian = .default
    · subst hnative
      cases defaultLe <;> simp [PrimJson.little]
    · simp [PrimJson.little, hnative]
  | uleb width =>
    unfold ReadAt readField
    refine Iff.trans ?_ (readUleb_patched before after)
    rw [← width_eq]
    rfl
  | sleb width =>
    have hbits : 1 < (carrier width).bits / 8 ∧ (carrier width).bits / 8 ≤ 8 := by cases width <;> decide
    refine iff_of_false (fun h => ?_) id
    refine readSleb_patched v ((IntType.sleb width).json defaultLe).little before after width hbits.1 hbits.2 ?_
    rw [← width_eq]
    exact h

/-- A count that has just been reserved, in a buffer that grows, is patched. -/
theorem patchCount_some (f : Form) (little : Bool) :
    ∃ w w', CountOpen w 0 f ∧ w.countHoles[0]? = some 0 ∧ w.patchCount 0 v f little = some w' := by
  obtain ⟨zeros, hlt, heq⟩ := reserveCount_eq (init none) 0 f
  rw [if_pos (by simp [Writer.reserve, init])] at heq
  have hhole := List.getElem?_set_self (a := 0) hlt
  let w : Writer :=
    { data := [] ++ (Key.count 0 f).room, capacity := none, countHoles := ([] ++ zeros).set 0 0, restHoles := [] }
  have hpatch : (w.patchCount 0 v f little).isSome = true := by
    rw [patchCount, show w.countHoles[0]? = some 0 from hhole]
    dsimp only
    split <;> rfl
  obtain ⟨w', hw'⟩ := Option.isSome_iff_exists.1 hpatch
  refine ⟨w, w', ⟨none, [], [], by simp, ?_⟩, hhole, hw'⟩
  rw [List.nil_append, run, step, heq]
  rfl

/-- **Prefixes are read as they are patched** if and only if the number fits. -/
theorem patched_as_read_iff (t : IntType) (defaultLe : Bool) (directives : List Bool) (v : UInt64) :
    PatchedAsRead t defaultLe directives v ↔ Fits defaultLe directives v t := by
  constructor
  · intro h
    let ops : List WriteOp := [.read "n" (t.json defaultLe) false none, .arrayBegin (some (.fieldRef "n")) none]
    have hlinked : CountLinked ops (t.json defaultLe) (t.json defaultLe) :=
      ⟨0, "n", false, some (.fieldRef "n"), List.mem_cons_self, List.mem_cons_of_mem _ List.mem_cons_self⟩
    obtain ⟨w, w', hopen, hhole, hpatch⟩ := patchCount_some (v := v) (t.json defaultLe).form (t.json defaultLe).little
    have hread := h.count ops _ (by simp [ops, WriteOp.plain]) hlinked w 0 0 w' hopen hhole hpatch
    obtain ⟨before, after, hlen, hdata⟩ := patchCount_data (countOpen_room hopen) hhole hpatch
    rw [hdata, ← hlen] at hread
    exact readAt_iff.1 hread
  · intro hfits
    refine ⟨fun ops patch hops hlinked w id hole w' hopen hhole hpatch => ?_,
      fun ops patch hops hlinked w hole outer w' hreached hholes hv hpatch => ?_⟩
    · obtain rfl := countLinked_eq hops hlinked
      obtain ⟨before, after, rfl, hdata⟩ := patchCount_data (countOpen_room hopen) hhole hpatch
      rw [hdata]
      exact readAt_iff.2 hfits
    · obtain rfl := sizeLinked_eq hops hlinked
      obtain ⟨before, after, rfl, hdata⟩ := patchRest_data (reached_inside hreached) hholes hv hpatch
      rw [hdata]
      exact readAt_iff.2 hfits

end

/-- A 16-bit count of 65536 elements is patched as 0. -/
theorem count_truncated : ¬ PatchedAsRead (.fixed .w16 .unsigned .little) true [] 65536 := by
  intro h
  let json : PrimJson := (IntType.fixed .w16 .unsigned .little).json true
  let ops : List WriteOp := [.read "n" json false none, .arrayBegin (some (.fieldRef "n")) none]
  have hlinked : CountLinked ops json json :=
    ⟨0, "n", false, some (.fieldRef "n"), List.mem_cons_self, List.mem_cons_of_mem _ List.mem_cons_self⟩
  have hopen : CountOpen ⟨[0, 0], none, List.replicate 8 0, []⟩ 0 json.form := ⟨none, [], [], by simp, by decide⟩
  have hread := h.count ops json (by simp [ops, WriteOp.plain]) hlinked _ 0 0 ⟨[0, 0], none, List.replicate 8 0, []⟩ hopen
    rfl (by decide +kernel)
  unfold ReadAt at hread
  exact absurd hread (by decide +kernel)

end Bbq.Writer
