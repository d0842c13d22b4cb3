import Bbq.Bytecode.Code

/-!
# What finalize does to a program

A backend emits line by line: an opcode with its operands, a branch, a label (`Line`). The lines give a layout, and the
emitter holds it (`emitted_laid`).

* **`finalize_same`**: where the operands are those a reader finds and every branch has a label, `finalize` and
  `backpatch_only` both come through, and the same is seen of their bytes. For reversal each chain of jumps is to end
  after eight.
* `looped`: what reversal does to a jump to itself. A branch over it that was to loop goes on behind it.
-/

namespace Bbq.Bytecode

open Bbq.Lib Bbq.Lib.Flow

inductive Operand
  | u8 (v : UInt8)
  | sleb (v : Int64)
  deriving DecidableEq, Repr

/-- What a backend emits at once. -/
inductive Line (κ : Type)
  | plain (o : UInt8) (operands : List Operand)
  | branch (o : UInt8) (target : κ) (operands : List Operand)
  | label (key : κ)
  deriving DecidableEq, Repr

def Operand.bytes : Operand → List UInt8
  | u8 v => [v]
  | sleb v => Leb128.Cpp.encodeSleb128 v

variable {κ σ ω : Type}

def Operand.emit (e : Emit κ) : Operand → Emit κ
  | u8 v => e.u8 v
  | sleb v => e.sleb v

section

variable [DecidableEq κ]

def Line.emit (e : Emit κ) : Line κ → Emit κ
  | plain o operands => operands.foldl Operand.emit (e.op o)
  | branch o target operands => operands.foldl Operand.emit (e.branch o target)
  | label key => e.label key

def emitted (lines : List (Line κ)) : Emit κ := lines.foldl Line.emit Emit.empty

/-- The line in a layout. -/
def Line.lay (l : Layout κ) : Line κ → Layout κ
  | plain o operands => { l with items := l.items ++ [.plain o (operands.flatMap Operand.bytes)] }
  | branch o target operands => { l with items := l.items ++ [.branch o target (operands.flatMap Operand.bytes)] }
  | label key => { l with place := Function.update l.place key (some l.items.length) }

def layout (lines : List (Line κ)) : Layout κ := lines.foldl Line.lay ⟨[], fun _ => none⟩

/-- A reader finds the operands. -/
def Line.Shaped (isa : Isa) : Line κ → Prop
  | plain o operands => (Item.plain o (operands.flatMap Operand.bytes) : Item κ).Shaped isa
  | branch o target operands => (Item.branch o target (operands.flatMap Operand.bytes)).Shaped isa
  | label _ => True

/-- Each branch has a label. -/
def Labelled (lines : List (Line κ)) : Prop :=
  ∀ o target operands, .branch o target operands ∈ lines → .label target ∈ lines

/-! ## The layout of the lines -/

omit [DecidableEq κ] in
theorem emit_operands (operands : List Operand) (e : Emit κ) :
    operands.foldl Operand.emit e = { e with code := e.code ++ operands.flatMap Operand.bytes } := by
  induction operands generalizing e with
  | nil => rw [List.foldl_nil, List.flatMap_nil, List.append_nil]
  | cons operand operands ih =>
    rw [List.foldl_cons, ih, List.flatMap_cons, ← List.append_assoc]
    cases operand with
    | u8 v => rfl
    | sleb v => rfl

/-- The branch that an item at a position is. -/
def Item.fixups (at_ : Nat) : Item κ → List (Fixup κ)
  | plain _ _ => []
  | branch _ key _ => [⟨at_ + 1, key, false⟩]

omit [DecidableEq κ] in
/-- An item is put behind the others. -/
theorem Laid.push {e : Emit κ} {l : Layout κ} (h : Laid e l) (item : Item κ) :
    Laid ⟨e.code ++ item.bytes placeholder, e.fixups ++ item.fixups e.code.length, e.labels⟩
      { l with items := l.items ++ [item] } := by
  have hchunks : ({ l with items := l.items ++ [item] } : Layout κ).chunks = l.chunks ++ [item.bytes placeholder] :=
    List.map_append
  have hstart : ∀ x, x ≤ l.items.length → ({ l with items := l.items ++ [item] } : Layout κ).start x = l.start x :=
    fun x hx => by
      unfold Layout.start Chunks.start
      rw [hchunks, List.take_append_of_le_length (by rw [Layout.chunks_length]; exact hx)]
  have hend : l.start l.items.length = e.code.length := by
    rw [h.code, ← Chunks.start_length, Layout.chunks_length]
    rfl
  have hitems : ∀ x, x < l.items.length → (l.items ++ [item])[x]? = l.items[x]? := fun x hx =>
    List.getElem?_append_left hx
  -- a branch is one from before, or the new one
  have hfixups : ∀ {n : Nat} {f : Fixup κ}, (e.fixups ++ item.fixups e.code.length)[n]? = some f →
      e.fixups[n]? = some f ∨ n = e.fixups.length ∧ ∃ o args, item = .branch o f.target args ∧
        f.pos = e.code.length + 1 := fun {n f} hf => by
    rw [List.getElem?_append] at hf
    split at hf
    · exact .inl hf
    · cases item with
      | plain o args => cases hf
      | branch o key args =>
        obtain ⟨hlt, hget⟩ := List.getElem?_eq_some_iff.mp hf
        have hzero : n - e.fixups.length = 0 := Nat.lt_one_iff.mp hlt
        rw [hzero] at hf
        obtain rfl := Option.some.inj hf
        exact .inr ⟨by omega, o, args, rfl, rfl⟩
  have hbefore : ∀ {n : Nat} {f : Fixup κ}, e.fixups[n]? = some f → f.dead = false → f.pos < e.code.length + 1 :=
    fun {n f} hf hlive => by
      obtain ⟨x, r, as, hx, hpos⟩ := h.live hf hlive
      have hlt := Chunks.start_lt l.chunks_ne (Layout.lt_length hx)
        (by rw [Layout.chunks_length]; exact Layout.lt_length hx)
      unfold Layout.start at hpos hend
      omega
  refine ⟨?_, fun {key x} hx => ?_, fun key => ?_, fun {n f} hf hlive => ?_, fun {x o key args} hx => ?_,
    fun {n n' f f'} hf hf' hlive hlive' hsame => ?_⟩
  · rw [hchunks, List.flatten_append, h.code, List.flatten_singleton]
  · rw [List.length_append]
    exact Nat.le_trans (h.placed hx) (Nat.le_add_right _ _)
  · change e.labels key = (l.place key).map _
    rw [h.labels]
    cases hx : l.place key with
    | none => rfl
    | some x =>
      change some _ = some _
      rw [hstart x (h.placed hx)]
  · obtain hf | ⟨-, o, args, rfl, hpos⟩ := hfixups hf
    · obtain ⟨x, r, as, hx, hpos⟩ := h.live hf hlive
      have hlt := Layout.lt_length hx
      exact ⟨x, r, as, by rw [hitems x hlt, hx], by rw [hstart x (Nat.le_of_lt hlt), hpos]⟩
    · refine ⟨l.items.length, o, args, ?_, by rw [hstart _ (Nat.le_refl _), hend, hpos]⟩
      rw [List.getElem?_append_right (Nat.le_refl _), Nat.sub_self]
      rfl
  · dsimp only at hx
    rw [List.getElem?_append] at hx
    split at hx
    · obtain ⟨n, hn⟩ := h.covered hx
      have hlt := Layout.lt_length hx
      refine ⟨n, ?_⟩
      dsimp only
      rw [List.getElem?_append_left (List.getElem?_eq_some_iff.mp hn).1, hn, hstart x (Nat.le_of_lt hlt)]
    · rename_i hge
      obtain ⟨hlt, hget⟩ := List.getElem?_eq_some_iff.mp hx
      have hzero : x - l.items.length = 0 := Nat.lt_one_iff.mp hlt
      rw [hzero] at hx
      obtain rfl := Option.some.inj hx
      obtain rfl : x = l.items.length := by omega
      refine ⟨e.fixups.length, ?_⟩
      dsimp only
      rw [List.getElem?_append_right (Nat.le_refl _), Nat.sub_self, hstart _ (Nat.le_refl _), hend]
      rfl
  · obtain hf | ⟨hn, o, args, -, hpos⟩ := hfixups hf <;> obtain hf' | ⟨hn', o', args', -, hpos'⟩ := hfixups hf'
    · exact h.distinct hf hf' hlive hlive' hsame
    · have := hbefore hf hlive
      omega
    · have := hbefore hf' hlive'
      omega
    · omega

theorem Laid.label {e : Emit κ} {l : Layout κ} (h : Laid e l) (key : κ) :
    Laid (e.label key) { l with place := Function.update l.place key (some l.items.length) } := by
  refine ⟨h.code, fun {key' x} hx => ?_, fun key' => ?_, h.live, h.covered, h.distinct⟩
  · dsimp only at hx
    by_cases hkey : key' = key
    · subst hkey
      rw [Function.update_self] at hx
      obtain rfl := Option.some.inj hx
      exact Nat.le_refl _
    · rw [Function.update_of_ne hkey] at hx
      exact h.placed hx
  · change Function.update e.labels key _ key' = (Function.update l.place key _ key').map _
    by_cases hkey : key' = key
    · subst hkey
      rw [Function.update_self, Function.update_self, h.code, ← Chunks.start_length, Layout.chunks_length]
      rfl
    · rw [Function.update_of_ne hkey, Function.update_of_ne hkey]
      exact h.labels key'

theorem Laid.line {e : Emit κ} {l : Layout κ} (h : Laid e l) (line : Line κ) : Laid (line.emit e) (line.lay l) := by
  cases line with
  | label key => exact h.label key
  | plain o operands =>
    have hpush := h.push (.plain o (operands.flatMap Operand.bytes))
    rw [Item.bytes, Item.fixups, List.append_nil] at hpush
    rw [Line.emit, Line.lay, emit_operands, Emit.op, List.append_assoc]
    exact hpush
  | branch o target operands =>
    have hpush := h.push (.branch o target (operands.flatMap Operand.bytes))
    rw [Item.bytes, Item.fixups] at hpush
    rw [Line.emit, Line.lay, emit_operands, Emit.branch]
    dsimp only
    rw [List.length_append, List.append_assoc, List.append_assoc]
    exact hpush

omit [DecidableEq κ] in
theorem laid_empty : Laid (Emit.empty : Emit κ) ⟨[], fun _ => none⟩ where
  code := rfl
  placed := fun h => by cases h
  labels := fun _ => rfl
  live := fun h => by cases h
  covered := fun h => by cases h
  distinct := fun h => by cases h

theorem emitted_laid (lines : List (Line κ)) : Laid (emitted lines) (layout lines) := by
  have hrun : ∀ (lines : List (Line κ)) (e : Emit κ) (l : Layout κ), Laid e l →
      Laid (lines.foldl Line.emit e) (lines.foldl Line.lay l) := fun lines => by
    induction lines with
    | nil => exact fun e l h => h
    | cons line lines ih => exact fun e l h => ih _ _ (h.line line)
  exact hrun lines _ _ laid_empty

/-! ## It is sound -/

def Line.item : Line κ → Option (Item κ)
  | plain o operands => some (.plain o (operands.flatMap Operand.bytes))
  | branch o target operands => some (.branch o target (operands.flatMap Operand.bytes))
  | label _ => none

theorem lay_items (lines : List (Line κ)) (l : Layout κ) :
    (lines.foldl Line.lay l).items = l.items ++ lines.filterMap Line.item := by
  induction lines generalizing l with
  | nil => exact (List.append_nil _).symm
  | cons line lines ih =>
    rw [List.foldl_cons, ih]
    cases line with
    | label key => rfl
    | plain o operands =>
      rw [Line.lay, List.filterMap_cons, Line.item]
      exact List.append_assoc ..
    | branch o target operands =>
      rw [Line.lay, List.filterMap_cons, Line.item]
      exact List.append_assoc ..

theorem lay_place (lines : List (Line κ)) (l : Layout κ) (key : κ) (h : (l.place key).isSome ∨ .label key ∈ lines) :
    ((lines.foldl Line.lay l).place key).isSome := by
  induction lines generalizing l with
  | nil => exact h.resolve_right List.not_mem_nil
  | cons line lines ih =>
    refine ih _ ?_
    cases line with
    | plain o operands => exact h.imp id fun hmem => (List.mem_cons.mp hmem).resolve_left fun h => (by cases h)
    | branch o target operands => exact h.imp id fun hmem => (List.mem_cons.mp hmem).resolve_left fun h => (by cases h)
    | label key' =>
      change (Function.update l.place key' _ key).isSome ∨ _
      by_cases hkey : key = key'
      · subst hkey
        rw [Function.update_self]
        exact .inl rfl
      · rw [Function.update_of_ne hkey]
        refine h.imp id fun hmem => (List.mem_cons.mp hmem).resolve_left fun h => ?_
        cases h
        exact hkey rfl

theorem layout_sound {isa : Isa} {lines : List (Line κ)} (hshaped : ∀ line ∈ lines, line.Shaped isa)
    (hlabelled : Labelled lines) : (layout lines).Sound isa := by
  have hitem : ∀ {i : Nat} {item}, (layout lines).items[i]? = some item → ∃ line ∈ lines, line.item = some item :=
    fun {i item} hi => by
      have hmem := List.mem_of_getElem? hi
      rw [layout, lay_items, List.nil_append, List.mem_filterMap] at hmem
      exact hmem
  refine ⟨fun {i item} hi => ?_, fun {i o key args} hi => ?_⟩
  · obtain ⟨line, hline, heq⟩ := hitem hi
    have hshape := hshaped line hline
    cases line with
    | plain o operands =>
      cases heq
      exact hshape
    | branch o target operands =>
      cases heq
      exact hshape
    | label key => cases heq
  · obtain ⟨line, hline, heq⟩ := hitem hi
    cases line with
    | plain o operands => cases heq
    | label key => cases heq
    | branch o target operands =>
      cases heq
      exact lay_place lines _ key (.inr (hlabelled _ _ _ hline))

/-! ## Both ways to finish -/

/-- **The passes are not seen.** The bound keeps `int` indices to all branches, and the targets within five bytes. -/
theorem finalize_same {isa : Isa} {m : Machine Instr σ ω} {cfg : Peephole} (hfits : Fits isa m cfg)
    (lines : List (Line κ)) (hshaped : ∀ line ∈ lines, line.Shaped isa) (hlabelled : Labelled lines)
    (hlen : (emitted lines).code.length < 2 ^ 33) (hrev : Reversible cfg (layout lines)) :
    ∃ e₁ e₂, (emitted lines).finalize cfg = some e₁ ∧ (emitted lines).backpatchOnly = some e₂ ∧
      e₁.code.length ≤ e₂.code.length ∧ Same m (decode isa e₁.code) 0 (decode isa e₂.code) 0 := by
  have hlaid := emitted_laid lines
  have hsound := layout_sound hshaped hlabelled
  have hkept : Kept isa m (layout lines) (emitted lines) (layout lines) :=
    ⟨hlaid, hsound, .refl 0, Nat.le_refl _⟩
  obtain ⟨e, l, hrounds, hk⟩ := rounds_kept hfits roundLimit hkept hrev
  have hle : e.code.length ≤ (emitted lines).code.length := by
    rw [hk.laid.code, hlaid.code]
    exact hk.length
  obtain ⟨e₁, hback₁, hlen₁, hsame₁⟩ := backpatch_same hfits hk.laid hk.sound (by omega)
  obtain ⟨e₂, hback₂, hlen₂, hsame₂⟩ := backpatch_same hfits hlaid hsound (by omega)
  refine ⟨e₁, e₂, ?_, hback₂, by omega, hsame₁.symm.trans (hk.same.symm.trans hsame₂)⟩
  unfold Emit.finalize
  rw [hrounds]
  exact hback₁

end

/-! ## A set of opcodes -/

namespace Synthetic

/-- `NOP`, `GOTO`, `RET`, `COND` and `NCOND` are 1 to 5. -/
def isa : Isa where
  branch := fun o => o == 2 || o == 4 || o == 5
  operands := fun _ _ => some []
  operands_append := fun _ _ h _ => h

def cfg : Peephole where
  gotoOp := 2
  invert := some fun o => if o = 4 then 5 else if o = 5 then 4 else 0
  isTerminator := some fun o => o == 3

/-- The state is what the conditions will be. -/
def step : Instr → List Bool → Effect (List Bool) Unit
  | (1, _), s => .next s
  | (2, _), s => .jump s
  | (3, _), s => .ret s
  | (4, _), b :: s => if b then .jump s else .next s
  | (5, _), b :: s => if b then .next s else .jump s
  | _, _ => .stop ()

def machine : Machine Instr (List Bool) Unit where
  exec := step
  silent := fun a => a.1 == 2
  exec_silent := fun a h s => by
    obtain ⟨o, args⟩ := a
    obtain rfl : o = 2 := by simpa using h
    rfl

theorem fits : Fits isa machine cfg where
  goto_branch := rfl
  goto_operands := rfl
  silent := fun o args => by
    change (o == 2) = true ↔ o = 2
    simp
  terminator := fun {isTerm} h t ht => by
    cases h
    obtain rfl : t = 3 := by simpa using ht
    exact ⟨rfl, rfl, fun s => .ret s⟩
  inverse := fun {invert} h c hc => by
    cases h
    dsimp only at hc ⊢
    by_cases h4 : c = 4
    · subst h4
      refine ⟨rfl, rfl, rfl, by decide, by decide, fun s => ?_⟩
      cases s with
      | nil => exact .stop ()
      | cons b s =>
        cases b with
        | true => exact .next s
        | false => exact .jump s
    · rw [if_neg h4] at hc ⊢
      by_cases h5 : c = 5
      · subst h5
        refine ⟨rfl, rfl, rfl, by decide, by decide, fun s => ?_⟩
        cases s with
        | nil => exact .stop ()
        | cons b s =>
          cases b with
          | true => exact .jump s
          | false => exact .next s
      · rw [if_neg h5] at hc
        exact absurd rfl hc

/-- `cond T; goto F; T: nop; nop; F: nop`. -/
def bridge : List (Line Nat) :=
  [.branch 4 0 [], .branch 2 1 [], .label 0, .plain 1 [], .plain 1 [], .label 1, .plain 1 []]

theorem bridge_short : (layout bridge).Short 2 := fun i o key args hi => by
  have hmem := List.mem_of_getElem? hi
  have hitems : (layout bridge).items = [.branch 4 0 [], .branch 2 1 [], .plain 1 [], .plain 1 [], .plain 1 []] := rfl
  rw [hitems] at hmem
  obtain ⟨-, rfl, -⟩ | ⟨-, rfl, -⟩ : (o = 4 ∧ key = 0 ∧ args = []) ∨ (o = 2 ∧ key = 1 ∧ args = []) := by
    simpa using hmem
  · exact ⟨0, .here rfl⟩
  · exact ⟨1, .here rfl⟩

theorem bridge_shaped : ∀ line ∈ bridge, line.Shaped isa := by
  simp [bridge, Line.Shaped, Item.Shaped, isa]

theorem bridge_labelled : Labelled bridge := fun o target operands h => by
  obtain ⟨-, rfl, -⟩ | ⟨-, rfl, -⟩ : (o = 4 ∧ target = 0 ∧ operands = []) ∨ (o = 2 ∧ target = 1 ∧ operands = []) := by
    simpa [bridge] using h
  · exact .tail _ (.tail _ (.head _))
  · exact .tail _ (.tail _ (.tail _ (.tail _ (.tail _ (.head _)))))

theorem bridge_same : ∃ e₁ e₂, (emitted bridge).finalize cfg = some e₁ ∧ (emitted bridge).backpatchOnly = some e₂ ∧
    e₁.code.length ≤ e₂.code.length ∧ Same machine (decode isa e₁.code) 0 (decode isa e₂.code) 0 :=
  finalize_same fits bridge bridge_shaped bridge_labelled (by decide) fun _ => bridge_short

/-- `cond T; L: goto L; T: ret`: a jump to itself is left out by reversal, and its label moves. -/
def looped : List (Line Nat) := [.branch 4 0 [], .label 1, .branch 2 1 [], .label 0, .plain 3 []]

example : ((emitted looped).finalize cfg).map Emit.code = some [5, 0x86, 0x80, 0x80, 0x80, 0, 3] := by decide

end Synthetic

end Bbq.Bytecode
