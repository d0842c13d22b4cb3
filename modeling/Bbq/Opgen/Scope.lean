import Bbq.Opgen.Lower

/-!
# Runs that agree on what is visible

Statements that name only what is visible run alike from variables that agree on it (`CStmt.runAll_sameOn`), and leave
everything else as it is (`CStmt.runAll_keeps`).
-/

namespace Bbq.Opgen

variable {A : Arith}

/-! ## Expressions -/

mutual

theorem CExpr.eval_congr {vars vars' : Vars A} :
    ∀ (e : CExpr), (∀ x ∈ e.names, vars x = vars' x) → e.eval A vars = e.eval A vars'
  | .const _, _ => rfl
  | .floatConst _, _ => rfl
  | .var x, h => by rw [CExpr.eval, CExpr.eval, h x (List.mem_singleton.2 rfl)]
  | .unary _ e, h => by rw [CExpr.eval, CExpr.eval, e.eval_congr h]
  | .binary _ l r, h => by
    rw [CExpr.eval, CExpr.eval, l.eval_congr fun x hx => h x (List.mem_append_left _ hx),
      r.eval_congr fun x hx => h x (List.mem_append_right _ hx)]
  | .select c t e, h => by
    rw [CExpr.eval, CExpr.eval,
      c.eval_congr fun x hx => h x (List.mem_append_left _ (List.mem_append_left _ hx)),
      t.eval_congr fun x hx => h x (List.mem_append_left _ (List.mem_append_right _ hx)),
      e.eval_congr fun x hx => h x (List.mem_append_right _ hx)]
  | .cast _ e, h => by rw [CExpr.eval, CExpr.eval, e.eval_congr h]
  | .call _ args, h => by rw [CExpr.eval, CExpr.eval, CExpr.evalAll_congr args h]
  | .pun _ _ e, h => by rw [CExpr.eval, CExpr.eval, e.eval_congr h]

theorem CExpr.evalAll_congr {vars vars' : Vars A} :
    ∀ (es : List CExpr), (∀ x ∈ CExpr.allNames es, vars x = vars' x) → CExpr.evalAll A vars es = CExpr.evalAll A vars' es
  | [], _ => rfl
  | e :: es, h => by
    rw [CExpr.evalAll, CExpr.evalAll, e.eval_congr fun x hx => h x (List.mem_append_left _ hx),
      CExpr.evalAll_congr es fun x hx => h x (List.mem_append_right _ hx)]

end

theorem CExpr.scoped_iff {e : CExpr} {visible : List String} : e.scoped visible = true ↔ ∀ x ∈ e.names, x ∈ visible := by
  simp [CExpr.scoped]

/-- The value of a scoped expression. -/
theorem CExpr.eval_of_scoped {vars vars' : Vars A} {e : CExpr} {visible : List String} (hs : e.scoped visible = true)
    (h : ∀ x ∈ visible, vars x = vars' x) : e.eval A vars = e.eval A vars' :=
  e.eval_congr fun x hx => h x (CExpr.scoped_iff.1 hs x hx)

/-! ## Variables -/

theorem Vars.set_self (vars : Vars A) (x : String) (ty : Scalar) (v : A.Val) : vars.set x ty v x = (ty, v) := if_pos rfl

theorem Vars.set_of_ne {vars : Vars A} {x y : String} {ty : Scalar} {v : A.Val} (h : y ≠ x) : vars.set x ty v y = vars y :=
  if_neg h

theorem Vars.set_congr {vars vars' : Vars A} {names : List String} (x : String) (ty : Scalar) (v : A.Val)
    (h : ∀ y ∈ names, vars y = vars' y) : ∀ y ∈ x :: names, vars.set x ty v y = vars'.set x ty v y := by
  intro y hy
  by_cases hyx : y = x
  · rw [hyx, Vars.set_self, Vars.set_self]
  · rw [Vars.set_of_ne hyx, Vars.set_of_ne hyx]
    exact h y ((List.mem_cons.1 hy).resolve_left hyx)

theorem leave_of_mem {names : List String} {outer inner : Vars A} {x : String} (h : x ∈ names) :
    leave names outer inner x = outer x :=
  if_pos h

theorem leave_of_not_mem {names : List String} {outer inner : Vars A} {x : String} (h : x ∉ names) :
    leave names outer inner x = inner x :=
  if_neg h

/-! ## Declarations -/

@[simp] theorem declared_nil : declared [] = [] := rfl

theorem declared_cons (s : CStmt) (ss : List CStmt) : declared (s :: ss) = declared [s] ++ declared ss := by
  cases s <;> rfl

/-- What a scope declares was not declared in it. -/
theorem scopedAll_fresh {outer : List String} :
    ∀ {ss : List CStmt} {here : List String}, CStmt.scopedAll outer here ss = true → ∀ x ∈ declared ss, x ∉ here
  | [], _, _, _, hx => nomatch hx
  | s :: ss, here, h, x, hx => by
    rw [CStmt.scopedAll, Bool.and_eq_true] at h
    rw [declared_cons, List.mem_append] at hx
    rcases hx with hx | hx
    · cases s with
      | decl ty y init =>
        obtain rfl : x = y := List.mem_singleton.1 hx
        cases init with
        | none => exact of_decide_eq_true h.1
        | some e => exact of_decide_eq_true (Bool.and_eq_true_iff.1 h.1).1
      | assign y ty e => exact nomatch hx
      | ite c t e => exact nomatch hx
      | loop c body => exact nomatch hx
      | block body => exact nomatch hx
    · exact fun hmem => scopedAll_fresh h.2 x hx (List.mem_append_right _ hmem)

/-! ## Runs -/

/-- Both run out, or both end in variables that agree on the names. -/
def SameOn (names : List String) : Option (Vars A) → Option (Vars A) → Prop
  | none, none => True
  | some vars, some vars' => ∀ x ∈ names, vars x = vars' x
  | _, _ => False

theorem SameOn.bind {names names' : List String} {o o' : Option (Vars A)} {f f' : Vars A → Option (Vars A)}
    (h : SameOn names o o')
    (hf : ∀ vars vars', (∀ x ∈ names, vars x = vars' x) → SameOn names' (f vars) (f' vars')) :
    SameOn names' (o.bind f) (o'.bind f') := by
  cases o with
  | none =>
    cases o' with
    | none => trivial
    | some => exact h.elim
  | some vars =>
    cases o' with
    | none => exact h.elim
    | some vars' => exact hf vars vars' h

/-- Leaving an inner scope. -/
theorem SameOn.leave {visible inner : List String} {vars vars' : Vars A} {o o' : Option (Vars A)}
    (hvars : ∀ x ∈ visible, vars x = vars' x) (h : SameOn (inner ++ visible) o o') :
    SameOn visible (o.map (leave inner vars)) (o'.map (Opgen.leave inner vars')) := by
  cases o with
  | none =>
    cases o' with
    | none => trivial
    | some => exact h.elim
  | some w =>
    cases o' with
    | none => exact h.elim
    | some w' =>
      intro x hx
      by_cases hin : x ∈ inner
      · rw [leave_of_mem hin, leave_of_mem hin]
        exact hvars x hx
      · rw [leave_of_not_mem hin, leave_of_not_mem hin]
        exact h x (List.mem_append_right _ hx)

theorem iterate_sameOn {names : List String} {cond cond' : Vars A → Bool} {body body' : Vars A → Option (Vars A)}
    (hcond : ∀ vars vars', (∀ x ∈ names, vars x = vars' x) → cond vars = cond' vars')
    (hbody : ∀ vars vars', (∀ x ∈ names, vars x = vars' x) → SameOn names (body vars) (body' vars')) (n : Nat) :
    ∀ vars vars', (∀ x ∈ names, vars x = vars' x) →
      SameOn names (iterate cond body n vars) (iterate cond' body' n vars') := by
  induction n with
  | zero => exact fun _ _ _ => trivial
  | succ n ih =>
    intro vars vars' h
    rw [iterate, iterate, ← hcond vars vars' h]
    by_cases hc : cond vars = true
    · rw [if_pos hc, if_pos hc]
      exact (hbody vars vars' h).bind ih
    · rw [if_neg hc, if_neg hc]
      exact h

section

variable (junk : String → A.Val) (n : Nat)

mutual

theorem CStmt.run_sameOn : ∀ (s : CStmt) {outer here : List String} {vars vars' : Vars A},
    s.scoped outer here = true → (∀ x ∈ here ++ outer, vars x = vars' x) →
      SameOn ((declared [s] ++ here) ++ outer) (s.run A junk n vars) (s.run A junk n vars')
  | .assign x ty e, outer, here, vars, vars', hs, h => by
    rw [CStmt.scoped, Bool.and_eq_true] at hs
    have hx := h x (of_decide_eq_true hs.1)
    rw [CStmt.run, CStmt.run, CExpr.eval_of_scoped hs.2 h, ← hx]
    exact fun y hy => Vars.set_congr x _ _ h y (List.mem_cons_of_mem _ hy)
  | .decl ty x none, outer, here, vars, vars', _, h => Vars.set_congr x ty (junk x) h
  | .decl ty x (some e), outer, here, vars, vars', hs, h => by
    rw [CStmt.scoped, Bool.and_eq_true] at hs
    rw [CStmt.run, CStmt.run, CExpr.eval_of_scoped hs.2 (Vars.set_congr x ty (junk x) h)]
    exact Vars.set_congr x ty _ h
  | .ite c t e, outer, here, vars, vars', hs, h => by
    rw [CStmt.scoped, Bool.and_eq_true, Bool.and_eq_true] at hs
    rw [CStmt.run, CStmt.run, CExpr.eval_of_scoped hs.1.1 h]
    split
    · exact .leave h (CStmt.inner_sameOn t hs.1.2 h)
    · exact .leave h (CStmt.inner_sameOn e hs.2 h)
  | .loop c body, outer, here, vars, vars', hs, h => by
    rw [CStmt.scoped, Bool.and_eq_true] at hs
    rw [CStmt.run, CStmt.run]
    refine iterate_sameOn (fun _ _ hv => ?_) (fun _ _ hv => ?_) n vars vars' h
    · rw [CExpr.eval_of_scoped hs.1 hv]
    · exact .leave hv (CStmt.inner_sameOn body hs.2 hv)
  | .block body, outer, here, vars, vars', hs, h => by
    rw [CStmt.scoped] at hs
    rw [CStmt.run, CStmt.run]
    exact .leave h (CStmt.inner_sameOn body hs h)

/-- Statements between braces. -/
theorem CStmt.inner_sameOn (ss : List CStmt) {visible : List String} {vars vars' : Vars A}
    (hs : CStmt.scopedAll visible [] ss = true) (h : ∀ x ∈ visible, vars x = vars' x) :
    SameOn (declared ss ++ visible) (CStmt.runAll A junk n ss vars) (CStmt.runAll A junk n ss vars') := by
  have hall := CStmt.runAll_sameOn ss hs h
  rw [List.append_nil] at hall
  exact hall

/-- **What statements do depends on what is visible to them.** -/
theorem CStmt.runAll_sameOn : ∀ (ss : List CStmt) {outer here : List String} {vars vars' : Vars A},
    CStmt.scopedAll outer here ss = true → (∀ x ∈ here ++ outer, vars x = vars' x) →
      SameOn ((declared ss ++ here) ++ outer) (CStmt.runAll A junk n ss vars) (CStmt.runAll A junk n ss vars')
  | [], _, _, _, _, _, h => h
  | s :: ss, outer, here, vars, vars', hs, h => by
    rw [CStmt.scopedAll, Bool.and_eq_true] at hs
    rw [CStmt.runAll, CStmt.runAll]
    refine (s.run_sameOn hs.1 h).bind fun w w' hw => ?_
    have hrest := CStmt.runAll_sameOn ss hs.2 hw
    have hnames : ∀ x ∈ (declared (s :: ss) ++ here) ++ outer, x ∈ (declared ss ++ (declared [s] ++ here)) ++ outer := by
      intro x hx
      rw [declared_cons] at hx
      simp only [List.mem_append] at hx ⊢
      tauto
    generalize CStmt.runAll A junk n ss w = o at hrest
    generalize CStmt.runAll A junk n ss w' = o' at hrest
    cases o with
    | none =>
      cases o' with
      | none => trivial
      | some => exact hrest.elim
    | some v =>
      cases o' with
      | none => exact hrest.elim
      | some v' => exact fun x hx => hrest x (hnames x hx)

end

/-! ### What is not visible -/

theorem iterate_keeps {x : String} {cond : Vars A → Bool} {body : Vars A → Option (Vars A)}
    (hbody : ∀ vars w, body vars = some w → w x = vars x) (k : Nat) :
    ∀ vars w, iterate cond body k vars = some w → w x = vars x := by
  induction k with
  | zero => exact fun _ _ h => nomatch h
  | succ k ih =>
    intro vars w h
    rw [iterate] at h
    by_cases hc : cond vars = true
    · rw [if_pos hc] at h
      obtain ⟨v, hv, hw⟩ := Option.bind_eq_some_iff.1 h
      rw [ih v w hw, hbody vars v hv]
    · rw [if_neg hc] at h
      cases h
      rfl

theorem leave_keeps {x : String} {names : List String} {vars w : Vars A} {o : Option (Vars A)}
    (ho : x ∉ names → ∀ v, o = some v → v x = vars x) (h : o.map (leave names vars) = some w) : w x = vars x := by
  obtain ⟨v, hv, rfl⟩ := Option.map_eq_some_iff.1 h
  by_cases hx : x ∈ names
  · exact leave_of_mem hx
  · rw [leave_of_not_mem hx]
    exact ho hx v hv

mutual

theorem CStmt.run_keeps {x : String} : ∀ (s : CStmt) {outer here : List String} {vars w : Vars A},
    s.scoped outer here = true → x ∉ (declared [s] ++ here) ++ outer → s.run A junk n vars = some w → w x = vars x
  | .assign y ty e, outer, here, vars, w, hs, hx, h => by
    rw [CStmt.scoped, Bool.and_eq_true] at hs
    rw [CStmt.run] at h
    cases h
    have hy : y ∈ here ++ outer := of_decide_eq_true hs.1
    exact Vars.set_of_ne fun hxy => hx (hxy ▸ hy)
  | .decl ty y none, outer, here, vars, w, _, hx, h => by
    rw [CStmt.run] at h
    cases h
    exact Vars.set_of_ne fun hxy => hx (hxy ▸ List.mem_cons_self)
  | .decl ty y (some e), outer, here, vars, w, _, hx, h => by
    rw [CStmt.run] at h
    cases h
    exact Vars.set_of_ne fun hxy => hx (hxy ▸ List.mem_cons_self)
  | .ite c t e, outer, here, vars, w, hs, hx, h => by
    rw [CStmt.scoped, Bool.and_eq_true, Bool.and_eq_true] at hs
    rw [CStmt.run] at h
    split at h
    · exact leave_keeps (CStmt.inner_keeps t hs.1.2 hx) h
    · exact leave_keeps (CStmt.inner_keeps e hs.2 hx) h
  | .loop c body, outer, here, vars, w, hs, hx, h => by
    rw [CStmt.scoped, Bool.and_eq_true] at hs
    rw [CStmt.run] at h
    exact iterate_keeps (fun _ _ hb => leave_keeps (CStmt.inner_keeps body hs.2 hx) hb) n vars w h
  | .block body, outer, here, vars, w, hs, hx, h => by
    rw [CStmt.scoped] at hs
    rw [CStmt.run] at h
    exact leave_keeps (CStmt.inner_keeps body hs hx) h

theorem CStmt.inner_keeps {x : String} (ss : List CStmt) {visible : List String} {vars : Vars A}
    (hs : CStmt.scopedAll visible [] ss = true) (hx : x ∉ visible) (hd : x ∉ declared ss) :
    ∀ v, CStmt.runAll A junk n ss vars = some v → v x = vars x := by
  intro v hv
  refine CStmt.runAll_keeps ss hs ?_ hv
  rw [List.append_nil]
  exact fun h => (List.mem_append.1 h).elim hd hx

/-- **What is not visible to statements stays as it is.** -/
theorem CStmt.runAll_keeps {x : String} : ∀ (ss : List CStmt) {outer here : List String} {vars w : Vars A},
    CStmt.scopedAll outer here ss = true → x ∉ (declared ss ++ here) ++ outer →
      CStmt.runAll A junk n ss vars = some w → w x = vars x
  | [], _, _, _, _, _, _, h => by
    cases h
    rfl
  | s :: ss, outer, here, vars, w, hs, hx, h => by
    rw [CStmt.scopedAll, Bool.and_eq_true] at hs
    rw [CStmt.runAll] at h
    obtain ⟨v, hv, hw⟩ := Option.bind_eq_some_iff.1 h
    rw [declared_cons] at hx
    simp only [List.mem_append, not_or] at hx
    rw [CStmt.runAll_keeps ss hs.2 (by simp only [List.mem_append, not_or]; tauto) hw]
    exact s.run_keeps hs.1 (by simp only [List.mem_append, not_or]; tauto) hv

end

end

end Bbq.Opgen
