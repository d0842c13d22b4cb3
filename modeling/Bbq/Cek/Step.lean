import Bbq.Cek.Sound

/-!
# One turn of the trampoline

Each spine kont, run where it is typed, leaves a sound machine. Together with the failure handlers
(`Sound.recover`, `Sound.abortRule`) this is **`Sound.step`**; `Sound.run` follows for every clean run
and `Sound.start` begins one.
-/

namespace Bbq.Cek

open Zcow (Builder)

section

variable {strict : Prop} {p : Program} {m : Machine} {Γ : List Scope}

/-! ## Producers -/

theorem PrimitiveInfo.byteCount_le (c : PrimitiveInfo) : c.byteCount ≤ 8 := by
  unfold byteCount
  rcases c with ⟨kind, width, _, _, _⟩
  rcases kind with _ | _ | _
  · rcases width with _ | _ | _ | _ <;> simp
  · simp only
    split <;> simp
  · simp

/-- A read of `n` bytes that the window allows. -/
theorem Held.read {n : Nat} (h : Held strict p m) (hn : n < 2 ^ 63)
    (hle : ¬ sizeAdd m.pos n > m.effectiveEnd p) :
    strict → m.pos ≤ sizeAdd m.pos n ∧ sizeAdd m.pos n = m.pos + n ∧
      sizeAdd m.pos n ≤ (bounds p.bytes.length m.windows).2 := fun hs => by
  have hadd := h.sizeAdd_eq hs hn
  rw [Machine.effectiveEnd_eq h.depth] at hle
  refine ⟨?_, hadd, Nat.not_lt.1 hle⟩
  rw [hadd]
  exact Nat.le_add_right _ _

/-- Yield the span from the cursor to `stop`, and move there. -/
theorem Sound.produceSpan {k : Kont} {leaf : Leaf} {stop : Nat} (h : Held strict p m)
    (hf : Stands strict p Γ m) (hk : Stores strict Γ 0 k)
    (hstop : strict → m.pos ≤ stop ∧ stop ≤ (bounds p.bytes.length m.windows).2)
    (hl : leaf.startOffset = m.pos) (hr : leaf.endOffset = stop) :
    Sound strict p ({ m with pos := stop }.produce leaf k) := by
  have hadv := h.advance hstop
  exact .produce hadv hf hk hadv.room (hl ▸ h.pos) (hr ▸ hadv.pos)

theorem Sound.produceVarint {k : Kont} {v : Int64} {consumed : Nat} {enc : Zcow.Enc}
    (h : Held strict p m) (hf : Stands strict p Γ m) (hk : Stores strict Γ 0 k)
    (hc : consumed ≤ (m.rest p).length) : Sound strict p (m.produceVarint v consumed enc k) := by
  have hrest : (m.rest p).length ≤ m.effectiveEnd p - m.pos ∧
      (m.rest p).length ≤ p.bytes.length := by
    simp only [Machine.rest, bytesAt, List.length_take, List.length_drop]
    omega
  have hsmall := p.small
  refine .produceSpan h hf hk (fun hs => ?_) rfl rfl
  rw [h.sizeAdd_eq hs (by omega)]
  have hpos := (h.pos hs).2
  rw [Machine.effectiveEnd_eq h.depth] at hrest
  omega

theorem Sound.matchPrimitive {prim : PrimitiveInfo} {k : Kont} (h : Held strict p m)
    (hf : Stands strict p Γ m) (hk : Stores strict Γ 0 k) :
    Sound strict p (m.matchPrimitive p prim k) := by
  unfold Machine.matchPrimitive
  rcases prim.encoding with _ | _ | _
  · by_cases hle : sizeAdd m.pos prim.byteCount > m.effectiveEnd p
    · simp only [hle, if_true]
      exact .fail _ h hf
    · simp only [hle, if_false]
      have hn := prim.byteCount_le
      have hread := h.read (n := prim.byteCount) (by omega) hle
      exact .produceSpan h hf hk (fun hs => ⟨(hread hs).1, (hread hs).2.2⟩) rfl rfl
  · simp only
    split
    · rename_i hu
      exact .produceVarint h hf hk (decodeUleb128_used hu)
    · exact .fail _ h hf
  · simp only
    split
    · rename_i hu
      exact .produceVarint h hf hk (decodeSleb128_used hu)
    · exact .fail _ h hf

theorem Sound.matchBytes {e : Expr} {isString : Bool} {k : Kont} (h : Held strict p m)
    (hf : Stands strict p Γ m) (hk : Stores strict Γ 0 k) :
    Sound strict p (m.matchBytes p e isString k) := by
  refine .consumeInt h hf fun len _ => ?_
  have h' : Held strict p { m with result := some (.int len) } := h.of_eq rfl rfl rfl
  simp only
  split
  · exact .fail _ h' hf
  · rename_i hle
    have hlen : len.toInt.toNat < 2 ^ 63 := by
      have := Int64.toInt_lt len
      omega
    have hread := h'.read hlen (fun hgt => hle (.inr hgt))
    exact .produceSpan (m := { m with result := some (.int len) }) h' hf hk (fun hs => ⟨(hread hs).1, (hread hs).2.2⟩) rfl rfl

theorem Sound.bindCompute {e : Expr} {k : Kont} (h : Held strict p m) (hf : Stands strict p Γ m)
    (hk : Stores strict Γ 0 k) : Sound strict p (m.bindCompute p e k) := by
  refine .consume h hf fun v _ => ?_
  have h' : Held strict p { m with result := v } := h.of_eq rfl rfl rfl
  split
  · exact .fail _ h' hf
  · exact .produce h' hf hk h'.room h'.pos h'.pos

theorem Sound.externalCall {funcName : String} {k : Kont} (h : Held strict p m)
    (hf : Stands strict p Γ m) (hk : Stores strict Γ 0 k)
    (hctl : m.control = .run (.externalCall funcName k)) (hg : strict → m.Guarded p) :
    Sound strict p (m.externalCall p funcName k) := by
  unfold Machine.externalCall
  rcases hext : p.externs with _ | table
  · exact .fail _ h hf
  · rcases htab : table funcName with _ | fn
    · simp only [htab]
      exact .fail _ h hf
    · simp only [htab]
      split
      · exact .fail _ h hf
      · rename_i consumed hfn
        refine .produceSpan h hf hk (fun hs => ?_) rfl rfl
        have hle := (hg hs).external _ _ _ _ _ hctl hext htab hfn
        have hpos := (h.pos hs).2
        have hbound := h.bounds_le
        have hsmall := p.small
        rw [Machine.effectiveEnd_eq h.depth] at hle
        rw [h.sizeAdd_eq hs (by omega)]
        omega

theorem Sound.extractBits {c : PrimitiveInfo} {w o : Nat} {s : Bool} {k : Kont}
    (h : Held strict p m) (hf : Stands strict p Γ m) (hk : Stores strict Γ c.byteCount k) :
    Sound strict p (m.extractBits p c w o s k) := by
  unfold Machine.extractBits
  by_cases hle : sizeAdd m.pos c.byteCount > m.effectiveEnd p
  · simp only [hle, if_true]
    exact .fail _ h hf
  · simp only [hle, if_false]
    have hn := c.byteCount_le
    have hread := h.read (n := c.byteCount) (by omega) hle
    generalize (c.endian == .big || c.endian == .default && !m.littleEndian) = msb
    have hf' : Stands strict p Γ { m with builder := m.builder.scopeIsBitsRun msb } := by
      show Fit strict _ Γ m.frames m.windows (scopesOf (m.builder.scopeIsBitsRun msb))
      rw [scopesOf_scopeIsBitsRun]
      exact hf
    refine .produce (h.of_eq rfl rfl rfl) hf' hk (fun hs => ?_) h.pos fun hs => ?_
    · have := hread hs
      show m.pos + c.byteCount ≤ (bounds p.bytes.length m.windows).2
      omega
    · have := hread hs
      have hpos := h.pos hs
      show _ ≤ sizeAdd m.pos c.byteCount ∧ sizeAdd m.pos c.byteCount ≤ _
      exact ⟨Nat.le_trans hpos.1 this.1, this.2.2⟩

theorem Sound.advancePos {n : Nat} {k : Kont} (h : Held strict p m) (hf : Stands strict p Γ m)
    (hk : Typed strict Γ 0 k) (hroom : Room strict p m n) :
    Sound strict p ({ m with pos := sizeAdd m.pos n }.go k) := by
  refine .go_zero (h.advance fun hs => ?_) hf hk
  have hr := hroom hs
  have hbound := h.bounds_le
  have hsmall := p.small
  rw [h.sizeAdd_eq hs (by omega)]
  omega

/-! ## Stores -/

/-- The two konts that follow a producer. -/
theorem Sound.store {n : Nat} {k : Kont} {c : Capture} (h : Held strict p m)
    (hf : Stands strict p Γ m) (hk : Stores strict Γ n k) (hroom : Room strict p m n)
    (hres : m.result = some (.capture c))
    (hstart : Inside strict p.bytes.length m.windows c.leaf.startOffset)
    (hstop : Inside strict p.bytes.length m.windows c.leaf.endOffset) :
    Sound strict p (m.exec p k) := by
  cases hk with
  | capture hk =>
    simp only [Machine.exec, Machine.capture, Machine.placeValue, hres]
    refine ⟨h.of_eq rfl rfl rfl, .stores rfl (.storeEnv hk) hroom ?_ rfl hstart hstop⟩
    refine hf.grow ?_
    show Grown (scopesOf m.builder) (scopesOf (Builder.addField _ _ _ _ _ _ _ _))
    rw [scopesOf_addField]
    exact .attachCapture _ (scopesOf_ne_nil _)
  | storeEnv hk =>
    simp only [Machine.exec, Machine.storeEnv, Machine.placeValue, hres]
    exact .go (h.of_eq rfl rfl rfl) hf hk hroom

/-! ## Capture scopes -/

/-- A scope opened at the cursor. -/
theorem Stands.open {b : Builder} {leaf : Leaf} (h : Held strict p m) (hf : Stands strict p Γ m)
    (hb : scopesOf b = ⟨leaf, []⟩ :: scopesOf m.builder) (hl : leaf.startOffset = m.pos) :
    Stands strict p (.struct :: Γ) { m with builder := b } := by
  show Fit strict _ _ m.frames m.windows (scopesOf b)
  rw [hb]
  exact .struct hf (hl ▸ h.pos)

theorem Sound.endStruct {k : Kont} (h : Held strict p m) (hf : Stands strict p (.struct :: Γ) m)
    (hk : Typed strict Γ 0 k) :
    Sound strict p ({ m with builder := m.builder.closeScope m.pos }.go k) := by
  obtain ⟨o, S', hS, hf', -⟩ := hf.inv_struct
  obtain ⟨o', R, rfl⟩ := hf'.exists_cons
  refine .go_zero (h.of_eq rfl rfl rfl) (hf'.grow ?_) hk
  show Grown _ (scopesOf (m.builder.closeScope m.pos))
  rw [scopesOf_closeScope m.builder hS]
  exact .attachCapture _ (by simp)

/-! ## Intervals -/

theorem Sound.seek {e : Expr} {k : Kont} (h : Held strict p m) (hf : Stands strict p Γ m)
    (hk : Typed strict Γ 0 k) (hctl : m.control = .run (.seek e k)) (hg : strict → m.Guarded p) :
    Sound strict p (m.seek p e k) := by
  refine .consumeInt h hf fun target hev => ?_
  simp only
  split
  · exact .fail _ (h.of_eq rfl rfl rfl) hf
  · rename_i hrange
    rw [not_or] at hrange
    have h' : Held strict p { m with result := some (.int target), pos := target.toInt.toNat } := by
      refine ⟨h.depth, h.nested, fun hs => ?_⟩
      have := (hg hs).seek _ _ target hctl hev (Int64.not_lt.1 hrange.1) (Nat.not_lt.1 hrange.2)
      rw [Machine.effectiveStart_eq h.depth p.bytes.length, Machine.effectiveEnd_eq h.depth] at this
      exact this
    exact .go_zero h' hf hk

/-- The windows after a push, whether the slot is new or reused. -/
theorem windows_push {i : List (Nat × Nat)} {d : Nat} (hd : d ≤ i.length) (w : Nat × Nat) :
    ((if d = i.length then i ++ [w] else i.set d w).take (d + 1)).reverse =
        w :: (i.take d).reverse ∧
      d + 1 ≤ (if d = i.length then i ++ [w] else i.set d w).length := by
  by_cases heq : d = i.length
  · subst heq
    simp [List.take_of_length_le]
  · have hlt : d < i.length := by omega
    refine ⟨?_, by simp [heq]; omega⟩
    simp only [heq, if_false]
    rw [List.take_succ_eq_append_getElem (by simpa using hlt), List.getElem_set_self,
      List.take_set_of_le (Nat.le_refl d), List.reverse_append]
    rfl

/-- A window within the active one, opened at the cursor. -/
theorem Held.openWindow {stop : Nat} (h : Held strict p m)
    (hw : Nested p.bytes.length (m.pos, stop) m.windows) :
    Held strict p (m.openWindow m.pos stop) ∧
      (m.openWindow m.pos stop).windows = (m.pos, stop) :: m.windows := by
  obtain ⟨hwin, hlen⟩ := windows_push h.depth (m.pos, stop)
  have hwin' : (m.openWindow m.pos stop).windows = (m.pos, stop) :: m.windows := hwin
  refine ⟨⟨hlen, ?_, ?_⟩, hwin'⟩
  · rw [hwin']
    exact ⟨hw, h.nested⟩
  · rw [hwin']
    exact fun _ => ⟨Nat.le_refl _, hw.mid⟩

theorem Sound.pushIntervalApply {relative : Bool} {v : Int64} {k : Kont} (h : Held strict p m)
    (hf : Stands strict p Γ m)
    (hk : Typed strict (.window :: Γ) 0 k ∨ ¬ strict ∧ Typed strict Γ 0 k) :
    Sound strict p (m.pushIntervalApply p relative v k) := by
  simp only [Machine.pushIntervalApply]
  generalize (if relative = true then sizeAdd m.pos v.toInt.toNat else v.toInt.toNat) = stop
  split
  · exact .fail _ h hf
  · rename_i hrange
    rw [Machine.effectiveStart_eq h.depth p.bytes.length, Machine.effectiveEnd_eq h.depth] at hrange
    simp only [not_or, Nat.not_lt] at hrange
    obtain ⟨hmid, hlo, hhi⟩ := hrange
    obtain ⟨hheld, hwin⟩ := h.openWindow ⟨hlo, hmid, hhi⟩
    rcases hk with hk | ⟨hs, hk⟩
    · refine .go_zero hheld ?_ hk
      show Fit strict _ (.window :: Γ) m.frames (Machine.windows _) (scopesOf m.builder)
      rw [hwin]
      exact .window hf
    · refine .go_zero hheld ?_ hk
      show Fit strict _ Γ m.frames (Machine.windows _) (scopesOf m.builder)
      rw [hwin]
      exact .leak hs hf

theorem Sound.pushInterval {relative : Bool} {e : Expr} {k : Kont} (h : Held strict p m)
    (hf : Stands strict p Γ m)
    (hk : Typed strict (.window :: Γ) 0 k ∨ ¬ strict ∧ Typed strict Γ 0 k) :
    Sound strict p (m.pushInterval p relative e k) := by
  have hm : Held strict p (m.markRest relative e) ∧ Stands strict p Γ (m.markRest relative e) := by
    unfold Machine.markRest
    split
    · refine ⟨h.of_eq rfl rfl rfl, ?_⟩
      show Fit strict _ Γ m.frames m.windows (scopesOf (m.builder.scopeDeterminesRest _))
      rw [scopesOf_scopeDeterminesRest]
      exact hf
    · exact ⟨h, hf⟩
  exact .consumeInt hm.1 hm.2 fun v _ => .pushIntervalApply (hm.1.of_eq rfl rfl rfl) hm.2 hk

theorem Sound.popInterval {checked : Bool} {k : Kont} (h : Held strict p m)
    (hf : Stands strict p (.window :: Γ) m) (hk : Typed strict Γ 0 k) :
    Sound strict p (m.popInterval p checked k) := by
  obtain ⟨w, W', hW, hf'⟩ := hf.inv_window
  unfold Machine.popInterval
  rcases hd : m.intervalDepth with _ | d
  · rw [Machine.windows_zero hd] at hW
    cases hW
  · simp only [Nat.zero_lt_succ, if_true, gt_iff_lt]
    split
    · exact .fail _ h hf
    · obtain ⟨w', -, hwin⟩ := Machine.windows_succ hd h.depth
      rw [hwin] at hW
      cases hW
      have hpop : Machine.windows { m with intervalDepth := d + 1 - 1 } =
          (m.intervals.take d).reverse := rfl
      have hheld : Held strict p { m with intervalDepth := d + 1 - 1 } := by
        have hn := h.nested
        have hpos := h.pos
        rw [hwin] at hn hpos
        refine ⟨?_, ?_, ?_⟩
        · have := h.depth
          show d + 1 - 1 ≤ m.intervals.length
          omega
        · rw [hpop]
          exact hn.2
        · rw [hpop]
          exact hpos.outer hn.1
      refine .go_zero hheld ?_ hk
      show Fit strict _ Γ m.frames (Machine.windows _) (scopesOf m.builder)
      rw [hpop]
      exact hf'

/-! ## Decisions -/

theorem Sound.evalConstraint {n : Nat} {e : Expr} {onFalse k : Kont} (h : Held strict p m)
    (hf : Stands strict p Γ m) (hk : Typed strict Γ n k) (hroom : Room strict p m n)
    (hno : onFalse = Cek.failEdge Γ ∨ Typed strict Γ 0 onFalse)
    (hctl : m.control = .run (.evalConstraint e onFalse k)) (hclean : m.Clean p) :
    Sound strict p (m.evalConstraint p e onFalse k) := by
  refine .consumeBool h hf fun v b hv hb => ?_
  have h' : Held strict p { m with result := v } := h.of_eq rfl rfl rfl
  rcases b with _ | _
  · rcases hno with rfl | hno
    · exact .failEdge h' hf (hclean e _ k hctl ⟨v, hv, hb⟩)
    · exact .go_zero h' hf hno
  · exact .go h' hf hk hroom

theorem Sound.setEndian {e : Expr} {k : Kont} (h : Held strict p m) (hf : Stands strict p Γ m)
    (hk : Typed strict Γ 0 k) : Sound strict p (m.setEndian p e k) :=
  .consumeBool h hf fun _ _ _ _ => .go_zero (h.of_eq rfl rfl rfl) hf hk

theorem selectCase_mem {v : Value} : ∀ {cases : Targets} {ordinal : Nat} {target : Kont},
    Machine.selectCase v cases = some (ordinal, target) → target ∈ cases.konts
  | .nil, _, _, h => by cases h
  | .cons value i k rest, ordinal, target, h => by
    by_cases hm : Machine.matchesCase v value = true
    · simp only [Machine.selectCase, hm, if_true, Option.some.injEq, Prod.mk.injEq] at h
      exact h.2 ▸ List.mem_cons_self
    · simp only [Machine.selectCase, hm] at h
      exact List.mem_cons_of_mem _ (selectCase_mem h)

theorem Sound.switchDispatch {e : Expr} {cases : Targets} {default : Option Kont} {reject : Bool}
    (h : Held strict p m) (hf : Stands strict p Γ m)
    (hcases : ∀ k ∈ cases.konts, Typed strict Γ 0 k)
    (hdefault : ∀ k, default = some k → Typed strict Γ 0 k) :
    Sound strict p (m.switchDispatch p e cases default reject) := by
  refine .consume h hf fun v _ => ?_
  have h' : Held strict p { m with result := v } := h.of_eq rfl rfl rfl
  split
  · exact .fail _ h' hf
  · split
    · rename_i hsel
      exact .go_zero (h'.of_eq rfl rfl rfl) hf (hcases _ (selectCase_mem hsel))
    · split
      · exact .go_zero (h'.of_eq rfl rfl rfl) hf (hdefault _ rfl)
      · exact .fail _ h' hf

/-! ## Choices and optionals -/

/-- Push the savepoint of a scope and run what stands in it. -/
theorem Sound.enter {sc : Scope} {target k : Kont} (h : Held strict p m) (hf : Stands strict p Γ m)
    (ha : Aims strict Γ sc target) (hk : Typed strict (sc :: Γ) 0 k) :
    Sound strict p ((m.pushFrame (.savepoint (m.savepoint (some target)))).go k) :=
  .go_zero (h.of_eq rfl rfl rfl) (Stands.pushSavepoint h hf ha) hk

/-- Leave a scope with success. -/
theorem Sound.leave {sc : Scope} {k : Kont} (h : Held strict p m) (hf : Stands strict p (sc :: Γ) m)
    (hsc : sc ≠ .struct ∧ sc ≠ .loop ∧ sc ≠ .window) (hk : Typed strict Γ 0 k) :
    Sound strict p (m.popSavepoint.go k) := by
  obtain ⟨hf', hi, hd, hp⟩ := hf.popSavepoint hsc
  exact .go_zero (h.of_eq hi hd hp) hf' hk

/-! ## Rule calls -/

theorem Sound.invokeRule {ruleName : String} {k : Kont} (h : Held strict p m)
    (hf : Stands strict p Γ m) (hk : Typed strict Γ 0 k)
    (hs : strict → p.grammar.restOnce = true) :
    Sound strict p (m.invokeRule p ruleName (backtrackTarget Γ) k) := by
  unfold Machine.invokeRule
  split
  · exact ⟨h.of_eq rfl rfl rfl, .failed rfl⟩
  · rename_i entry he
    exact .go_zero (h.of_eq rfl rfl rfl) (.call hf hk rfl) (p.entry_typed hs he)

theorem Sound.returnRule {k : Kont} (h : Held strict p m) (hf : Stands strict p [] m)
    (hk : Typed strict [] 0 k) : Sound strict p (m.returnRule k) := by
  unfold Machine.returnRule
  rcases hf.inv_call with hnil | ⟨rf, F', Δ, hF, hf', hret, -⟩
  · simp only [hnil]
    exact .go_zero h hf hk
  · simp only [hF]
    exact .go_zero (h.of_eq rfl rfl rfl) hf' hret

/-! ## Arrays -/

section

variable {site : LoopSite}

/-- The array's scope and frame. -/
theorem Stands.enterArray (site : LoopSite) (limit : Int64) (h : Held strict p m) (hf : Stands strict p Γ m) :
    Stands strict p (.loop :: Γ) (m.enterArray site limit) := by
  show Fit strict _ _ (.loop _ :: m.frames) m.windows (scopesOf (Builder.beginArray _ _ _))
  rw [scopesOf_beginArray]
  exact .loop hf h.pos

theorem Stands.pushResyncSavepoint (h : Held strict p m) (hf : Stands strict p (.loop :: Γ) m)
    (hpl : Placed strict site Γ) : Stands strict p (site.scopes ++ Γ) (m.pushResyncSavepoint site) := by
  rcases hres : site.resyncs with _ | _
  · simpa [LoopSite.scopes, Machine.pushResyncSavepoint, LoopSite.resyncTarget, hres] using hf
  · simpa [LoopSite.scopes, Machine.pushResyncSavepoint, LoopSite.resyncTarget, hres] using
      Stands.pushSavepoint h hf (.site hres hpl)

theorem Held.pushResyncSavepoint (h : Held strict p m) :
    Held strict p (m.pushResyncSavepoint site) := by
  unfold Machine.pushResyncSavepoint
  split
  · exact h
  · exact h.of_eq rfl rfl rfl

theorem Sound.untilCheck {e : Expr} {body : Kont} (h : Held strict p m)
    (hf : Stands strict p (site.scopes ++ Γ) m) (hpl : Placed strict site Γ)
    (hbody : Typed strict (site.scopes ++ Γ) 0 body) :
    Sound strict p (m.untilCheck p site e body) := by
  refine .consumeBool h hf fun v b _ _ => ?_
  have h' : Held strict p { m with result := v } := h.of_eq rfl rfl rfl
  rcases b with _ | _
  · exact .go_zero h' hf hbody
  · exact .go_zero h' hf (LoopSite.endNode_typed hpl).1

theorem Sound.beginCounted {count : Expr} (h : Held strict p m) (hf : Stands strict p Γ m)
    (hpl : Placed strict site Γ) : Sound strict p (m.beginCounted p site count) := by
  have harm : Held strict p (m.armCount count) ∧ Stands strict p Γ (m.armCount count) := by
    unfold Machine.armCount
    split
    · exact ⟨h.of_eq rfl rfl rfl, hf⟩
    · exact ⟨h, hf⟩
  refine .consumeInt harm.1 harm.2 fun limit _ => ?_
  have h' : Held strict p { m.armCount count with result := some (.int limit) } :=
    harm.1.of_eq rfl rfl rfl
  have henter := Stands.enterArray site limit h' harm.2
  have hheld : Held strict p (Machine.enterArray
      { m.armCount count with result := some (.int limit) } site limit) := h'.of_eq rfl rfl rfl
  simp only
  split
  · exact .go_zero hheld.pushResyncSavepoint (.pushResyncSavepoint hheld henter hpl)
      (bodyHead_typed hpl)
  · exact .go_zero hheld henter (LoopSite.endNode_typed hpl).2

theorem Sound.beginArray (h : Held strict p m) (hf : Stands strict p Γ m)
    (hpl : Placed strict site Γ) : Sound strict p (m.beginArray p site) := by
  have henter := Stands.enterArray site (-1) h hf
  have hheld : Held strict p (m.enterArray site (-1)) := h.of_eq rfl rfl rfl
  have hpush := Stands.pushResyncSavepoint hheld henter hpl
  unfold Machine.beginArray
  split
  · exact .beginCounted h hf hpl
  · exact .beginCounted h hf hpl
  · simp only
    split
    · exact .go_zero hheld.pushResyncSavepoint hpush (LoopSite.endNode_typed hpl).1
    · exact .go_zero hheld.pushResyncSavepoint hpush (bodyHead_typed hpl)
  · exact .untilCheck hheld.pushResyncSavepoint hpush hpl (bodyHead_typed hpl)

theorem Sound.countCheck {count : Expr} (h : Held strict p m)
    (hf : Stands strict p (site.scopes ++ Γ) m) (hpl : Placed strict site Γ) :
    Sound strict p (m.countCheck p site count) := by
  refine .consumeInt h hf fun limit _ => ?_
  have h' : Held strict p { m with result := some (.int limit) } := h.of_eq rfl rfl rfl
  split
  · split
    · exact .go_zero h' hf (LoopSite.endNode_typed hpl).1
    · exact .go_zero h' hf (loopEntry_typed hpl)
  · exact .fail _ h' hf

theorem Sound.nextElement {lf : LoopFrame} (h : Held strict p m)
    (hf : Stands strict p (site.scopes ++ Γ) m) (hpl : Placed strict site Γ) :
    Sound strict p (m.nextElement p site lf) := by
  have hend := (LoopSite.endNode_typed hpl).1
  have hloop := loopEntry_typed hpl
  unfold Machine.nextElement
  split
  · split
    · exact .go_zero h hf hend
    · exact .go_zero h hf hloop
  · split
    · exact .go_zero h hf hend
    · exact .go_zero h hf hloop
  · exact .countCheck h hf hpl
  · exact .untilCheck h hf hpl hloop

/-- The counter advances; a resync savepoint is taken anew. -/
theorem Sound.arrayNext (h : Held strict p m) (hf : Stands strict p (site.scopes ++ Γ) m)
    (hpl : Placed strict site Γ) : Sound strict p (m.arrayNext p site) := by
  unfold Machine.arrayNext
  rcases hres : site.resyncs with _ | _
  · have hsc : site.scopes ++ Γ = .loop :: Γ := by simp [LoopSite.scopes, hres]
    obtain ⟨lf, F', o, S', hF, hS, hfit, hin⟩ := (hsc ▸ hf).inv_loop
    simp only [hF]
    refine .nextElement (h.of_eq rfl rfl rfl) ?_ hpl
    rw [hsc]
    show Fit strict _ _ (.loop _ :: F') m.windows (scopesOf m.builder)
    rw [hS]
    exact .loop hfit hin
  · have hsc : site.scopes ++ Γ = .site site :: .loop :: Γ := by simp [LoopSite.scopes, hres]
    obtain ⟨sp, F₁, target, hF, ha, htgt, hf₁⟩ := (hsc ▸ hf).inv_save (by simp)
    obtain ⟨lf, F', o, S', rfl, hS, hfit, hin⟩ := hf₁.inv_loop
    simp only [hF, if_true]
    refine .nextElement (h.of_eq rfl rfl rfl) ?_ hpl
    rw [hsc, htgt]
    have hloop : Stands strict p (.loop :: Γ)
        { m with frames := .loop (Machine.LoopFrame.advance lf) :: F' } := by
      show Fit strict _ _ _ m.windows (scopesOf m.builder)
      rw [hS]
      exact .loop hfit hin
    exact Stands.pushSavepoint
      (m := { m with frames := .loop (Machine.LoopFrame.advance lf) :: F' })
      (h.of_eq rfl rfl rfl) hloop ha

theorem Sound.endArray {resync : Bool} {k : Kont} (h : Held strict p m)
    (hf : Stands strict p (.loop :: Γ) m) (hk : Typed strict Γ 0 k) :
    Sound strict p (m.endArray resync k) := by
  obtain ⟨lf, F', o, S', hF, hS, hfit, -⟩ := hf.inv_loop
  obtain ⟨o', R, rfl⟩ := hfit.exists_cons
  have hpop : m.popSavepoint = m := by simp [Machine.popSavepoint, hF]
  simp only [Machine.endArray, hpop, ite_self, hF]
  refine .go_zero (h.of_eq rfl rfl rfl) (Fit.grow hfit ?_) hk
  show Grown _ (scopesOf (m.builder.closeScope m.pos))
  rw [scopesOf_closeScope m.builder hS]
  exact .attachCapture _ (by simp)

theorem Sound.endResync {k : Kont} (h : Held strict p m)
    (hf : Stands strict p (.site site :: .loop :: Γ) m) (hk : Typed strict Γ 0 k) :
    Sound strict p (m.endArray true k) := by
  obtain ⟨hf', hi, hd, hp⟩ := hf.popSavepoint (by simp)
  have hend : Sound strict p (m.popSavepoint.endArray false k) :=
    .endArray (h.of_eq hi hd hp) hf' hk
  exact hend

end

/-! ## The step and the run -/

/-- **One turn of the trampoline.** -/
theorem Sound.step (h : Sound strict p m) (hclean : m.Clean p) (hg : strict → m.Guarded p)
    (hs : strict → p.grammar.restOnce = true) : Sound strict p (m.step p) := by
  unfold Machine.step
  cases h.inPlace with
  | done hctl =>
    rw [hctl]
    exact h
  | failed hctl =>
    rw [hctl]
    exact h
  | stores hctl hk hroom hf hres hstart hstop =>
    rw [hctl]
    exact .store h.held hf hk hroom hres hstart hstop
  | recovers hctl hov hsplit ht htop =>
    rw [hctl]
    exact .recover h.held hov hsplit ht htop
  | aborts hctl hf hnone hedge =>
    rw [hctl]
    exact .abortRule h.held hf hnone hedge
  | typed hctl hk hroom hf =>
    rw [hctl]
    have hh := h.held
    cases hk with
    | halt => exact ⟨hh.of_eq rfl rfl rfl, .done rfl⟩
    | returnRule hk => exact .returnRule hh hf hk
    | matchPrimitive hk => exact .matchPrimitive hh hf hk
    | matchBytes hk => exact .matchBytes hh hf hk
    | bindCompute hk => exact .bindCompute hh hf hk
    | externalCall hk => exact .externalCall hh hf hk hctl hg
    | extractBits hk => exact .extractBits hh hf hk
    | advancePos hk => exact .advancePos hh hf hk hroom
    | beginStruct hk =>
      exact .go_zero (hh.of_eq rfl rfl rfl) (.open hh hf (scopesOf_beginStruct _ _ _) rfl) hk
    | beginVariant hk =>
      exact .go_zero (hh.of_eq rfl rfl rfl) (.open hh hf (scopesOf_beginVariant _ _ _ _) rfl) hk
    | endStruct hk => exact .endStruct hh hf hk
    | seek hk => exact .seek hh hf hk hctl hg
    | pushInterval hk => exact .pushInterval hh hf (.inl hk)
    | pushLeak hst hk => exact .pushInterval hh hf (.inr ⟨hst, hk⟩)
    | popInterval hk => exact .popInterval hh hf hk
    | check hk => exact .evalConstraint hh hf hk hroom (.inl rfl) hctl hclean
    | branch habsent hk => exact .evalConstraint hh hf hk hroom (.inr habsent) hctl hclean
    | setEndian hk => exact .setEndian hh hf hk
    | switchDispatch hcases hdefault => exact .switchDispatch hh hf hcases hdefault
    | beginChoice hl hk => exact .enter hh hf (.arm hl) hk
    | commitChoice hk => exact .leave hh hf (by simp) hk
    | commitLast hk => exact .leave hh hf (by simp) hk
    | beginOptional hk hinner => exact .enter hh hf (.opt hk) hinner
    | endOptional hk => exact .leave hh hf (by simp) hk
    | invokeRule hk => exact .invokeRule hh hf hk hs
    | beginArray hpl => exact .beginArray hh hf hpl
    | arrayNext hres hpl =>
      exact .arrayNext hh (by simpa [LoopSite.scopes, hres] using hf) hpl
    | arrayNextResync hres hpl =>
      exact .arrayNext hh (by simpa [LoopSite.scopes, hres] using hf) hpl
    | endArray hk => exact .endArray hh hf hk
    | endArrayResync hk => exact .endResync hh hf hk

/-- **Every clean run stays sound.** -/
theorem Sound.run {m : Machine} (h : Sound strict p m) (hs : strict → p.grammar.restOnce = true)
    (n : Nat) (hclean : ∀ i < n, (m.run p i).Clean p)
    (hg : strict → ∀ i < n, (m.run p i).Guarded p) : Sound strict p (m.run p n) := by
  induction n generalizing m with
  | zero => exact h
  | succ n ih =>
    have hstep := h.step (hclean 0 (Nat.succ_pos n)) (fun hst => hg hst 0 (Nat.succ_pos n)) hs
    exact ih hstep (fun i hi => hclean (i + 1) (Nat.succ_lt_succ hi))
      fun hst i hi => hg hst (i + 1) (Nat.succ_lt_succ hi)

/-- A fresh machine at a rule's entry. -/
theorem Sound.start {name : String} {k : Kont} (hs : strict → p.grammar.restOnce = true)
    (he : p.entry name = some k) : Sound strict p (p.start k) := by
  have hh : Held strict p (p.start k) :=
    ⟨Nat.le_refl _, trivial, fun _ => ⟨Nat.le_refl _, Nat.zero_le _⟩⟩
  exact ⟨hh, .typed rfl (p.entry_typed hs he) hh.room .bottom⟩

end

end Bbq.Cek
