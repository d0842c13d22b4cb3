import Bbq.Cek.Simulate

/-!
# The elements of an array

What the loop of an array (`elements`) finds, apart from how it goes about it.

* `Steady P`: `P` leaves the counter of the loop around it alone. What a construct means does (`parse_steady`).
* `Tries later P s Q e`: from `s` on, one byte is skipped for each attempt that fails, and `Q` is attempted at `e`.
-/

namespace Bbq.Cek

open Zcow (Builder)

/-! ## Counters -/

theorem Outcome.bind_eq_ok {α β : Type} {o : Outcome α} {f : α → Outcome β} {b : β} :
    (o >>= f) = .ok b ↔ ∃ a, o = .ok a ∧ f a = .ok b := by
  constructor
  · intro h
    rcases o with a | _ | _ | _
    · exact ⟨a, rfl, h⟩
    · cases h
    · cases h
    · cases h
  · rintro ⟨a, rfl, h⟩
    exact h

/-- The counter of the loop around is as it was. -/
def Steady (P : Parser) : Prop := ∀ s s' : St, P s = .ok s' → s'.counter = s.counter

section

variable {p : Program} {P Q : Parser}

theorem Steady.ok : Steady .ok := fun s s' h => by
  cases h
  rfl

theorem Steady.bind (hP : Steady P) (hQ : Steady Q) : Steady (fun s => P s >>= Q) := fun s s' h => by
  obtain ⟨a, ha, hb⟩ := Outcome.bind_eq_ok.1 h
  exact (hQ _ _ hb).trans (hP _ _ ha)

theorem Steady.orElse (hP : Steady P) (hQ : Steady Q) : Steady (fun s => (P s).orElse (Q s)) := by
  intro s s' h
  dsimp only at h
  rcases hs : P s with a | _ | _ | _
  · rw [hs] at h
    cases h
    exact hP _ _ hs
  · rw [hs] at h
    exact hQ _ _ h
  · rw [hs] at h
    cases h
  · rw [hs] at h
    cases h

theorem St.closeScope_counter (s : St) : s.closeScope.counter = s.counter := by
  unfold St.closeScope
  split <;> rfl

theorem St.take_counter (s : St) (name : String) (l : Leaf) : (s.take name l).counter = s.counter := by
  unfold St.take St.dest
  split <;> rfl

/-- A construct in a scope. -/
theorem Steady.scoped (hP : Steady P) (type : CaptureType) (name : String) :
    Steady (fun s => do return (← P (s.openScope type name)).closeScope) := fun s s' h => by
  obtain ⟨a, ha, hb⟩ := Outcome.bind_eq_ok.1 h
  cases hb
  exact a.closeScope_counter.trans (hP (s.openScope type name) a ha)

/-- A leaf, stored. -/
theorem Steady.leaf (o : St → Outcome Leaf) (name : String) : Steady (fun s => do return s.take name (← o s)) := fun s s' h => by
  obtain ⟨l, -, hb⟩ := Outcome.bind_eq_ok.1 h
  cases hb
  exact St.take_counter _ _ _

theorem check_steady (c : Option Expr) : Steady (St.check p c) := by
  intro s s' h
  unfold St.check at h
  split at h
  · cases h
    rfl
  · obtain ⟨b, -, hb⟩ := Outcome.bind_eq_ok.1 h
    split at hb
    · cases hb
      rfl
    · cases hb

theorem pushWindow_steady (relative : Bool) (e : Expr) : Steady (St.pushWindow p relative e) := fun s s' h => by
  obtain ⟨v, -, hb⟩ := Outcome.bind_eq_ok.1 h
  generalize (if relative = true then _ else _) = stop at hb
  dsimp only at hb
  split at hb
  · cases hb
  · cases hb
    rfl

theorem popWindow_steady (checked : Bool) : Steady (St.popWindow p checked) := by
  intro s s' h
  unfold St.popWindow at h
  split at h
  · cases h
    rfl
  · split at h
    · cases h
    · cases h
      rfl

theorem seek_steady (e : Expr) : Steady (St.seek p e) := fun s s' h => by
  obtain ⟨v, -, hb⟩ := Outcome.bind_eq_ok.1 h
  split at hb
  · cases hb
  · cases hb
    rfl

theorem enter_steady (iv : Interval) : Steady (St.enter p iv) := by
  cases iv with
  | startEnd start stop => exact (seek_steady start).bind (pushWindow_steady false stop)
  | length len => exact pushWindow_steady true len

theorem Steady.inWindow (hP : Steady P) (iv : Option Interval) : Steady (inWindow p iv P) := by
  rcases iv with _ | iv
  · exact hP
  · exact (enter_steady iv).bind (hP.bind (popWindow_steady false))

/-! ### What a construct means -/

theorem bits_steady (container : PrimitiveInfo) (offset : Nat) (es : List BitfieldEntry) :
    Steady (parseBits p container offset es) := by
  induction es generalizing offset with
  | nil =>
    intro s s' h
    cases h
    rfl
  | cons e es ih =>
    intro s s' h
    unfold parseBits at h
    obtain ⟨l, -, h⟩ := Outcome.bind_eq_ok.1 h
    obtain ⟨t, ht, h⟩ := Outcome.bind_eq_ok.1 h
    have hdest : (s.dest e.name l).counter = s.counter := by
      unfold St.dest
      split <;> rfl
    exact (ih _ _ _ h).trans ((check_steady _ _ _ ht).trans hdest)

theorem parsePrimitive_steady (kind : PrimitiveKind) (c : Option Expr) (iv : Option Interval) (name : String) :
    Steady (parsePrimitive p kind c iv name) := by
  intro s s' h
  unfold parsePrimitive at h
  split at h
  · obtain ⟨l, -, h⟩ := Outcome.bind_eq_ok.1 h
    exact (check_steady _ _ _ h).trans (St.take_counter _ _ _)
  · obtain ⟨l, -, h⟩ := Outcome.bind_eq_ok.1 h
    exact (check_steady _ _ _ h).trans (St.take_counter _ _ _)

theorem parseArray_steady (n : Nat) (name : String) (mode : ArrayMode) (resync : Bool) (body later : Parser) :
    Steady (parseArray p n name mode resync body later) := fun s s' h => by
  obtain ⟨limit, -, h⟩ := Outcome.bind_eq_ok.1 h
  obtain ⟨t, -, h⟩ := Outcome.bind_eq_ok.1 h
  cases h
  rfl

variable {n : Nat} {call : String → Parser}

theorem armParser_steady (hcall : ∀ name, Steady (call name)) (t : TypeExpr) (hP : Steady P) :
    Steady (armParser p false call t P) := fun s s' h => by
  rw [armParser_false] at h
  split at h
  · exact hcall _ _ _ h
  · exact hP _ _ h

mutual

/-- **A construct leaves the counter alone.** -/
theorem parse_steady (hcall : ∀ name, Steady (call name)) (t : TypeExpr) (name : String) :
    Steady (parse p false n call t name) := by
  match t with
  | .struct fields constraint =>
    intro s s' h
    simp only [parse] at h
    obtain ⟨a, ha, h⟩ := Outcome.bind_eq_ok.1 h
    have hfields := fields_steady hcall fields (s.openScope .struct name) a ha
    split at h
    · obtain ⟨b, hb, h⟩ := Outcome.bind_eq_ok.1 h
      obtain ⟨c, hc, h⟩ := Outcome.bind_eq_ok.1 h
      cases h
      exact c.closeScope_counter.trans ((check_steady _ _ _ hc).trans ((popWindow_steady true _ _ hb).trans hfields))
    · rw [Outcome.ok_bind] at h
      obtain ⟨c, hc, h⟩ := Outcome.bind_eq_ok.1 h
      cases h
      exact c.closeScope_counter.trans ((check_steady _ _ _ hc).trans hfields)
  | .union .nil => exact .ok
  | .union (.cons vname body constraint iv rest) => exact arms_steady hcall (.cons vname body constraint iv rest) name
  | .array element spec constraint iv elementInterval resync =>
    exact (parseArray_steady _ _ _ _ _ _).bind (check_steady constraint)
  | .optional element (some cond) iv =>
    intro s s' h
    simp only [parse] at h
    obtain ⟨b, -, h⟩ := Outcome.bind_eq_ok.1 h
    split at h
    · exact parse_steady hcall element name _ _ h
    · cases h
      rfl
  | .optional element none iv => exact (parse_steady hcall element name).orElse .ok
  | .switch discriminator cases default =>
    intro s s' h
    simp only [parse] at h
    obtain ⟨v, -, h⟩ := Outcome.bind_eq_ok.1 h
    split at h
    · cases h
    · exact cases_steady hcall cases name _ (default_steady hcall default name) _ _ h
  | .compute e => exact .leaf _ name
  | .primitive kind constraint iv => exact parsePrimitive_steady kind constraint iv name
  | .ruleRef ruleName constraint iv => exact (hcall ruleName).scoped .struct name
  | .external funcName constraint iv => exact .leaf _ name
  | .bitfield container first rest => exact (bits_steady _ 0 (first :: rest)).scoped .struct name
  | .endianSwitch e =>
    intro s s' h
    simp only [parse] at h
    obtain ⟨b, -, h⟩ := Outcome.bind_eq_ok.1 h
    cases h
    rfl

theorem fields_steady (hcall : ∀ name, Steady (call name)) (fs : Fields) : Steady (parseFields p false n call fs) := by
  match fs with
  | .nil => exact .ok
  | .cons name body constraint iv true rest =>
    intro s s' h
    simp only [parseFields, droppedWindow_false, placed_false, droppedWhere_false, Outcome.ok_bind, if_true] at h
    exact ((parse_steady hcall body name).bind ((pushWindow_steady true _).bind (fields_steady hcall rest))) s s' h
  | .cons name body constraint iv false rest =>
    intro s s' h
    simp only [parseFields, fieldWindows_false, droppedWhere_false, Outcome.ok_bind, Bool.false_eq_true, if_false] at h
    exact (((parse_steady hcall body name).inWindow _).bind (fields_steady hcall rest)) s s' h

theorem arms_steady (hcall : ∀ name, Steady (call name)) (vs : Variants) (name : String) :
    Steady (parseArms p false n call vs name) := by
  match vs with
  | .nil =>
    intro s s' h
    cases h
  | .cons vname body constraint iv rest =>
    have harm : Steady (armParser p false call body (parse p false n call body name)) :=
      armParser_steady hcall body (parse_steady hcall body name)
    exact (harm.scoped .struct vname).orElse (arms_steady hcall rest name)

theorem cases_steady (hcall : ∀ name, Steady (call name)) (cs : Cases) (name : String) (v : Value) {dflt : Parser}
    (hd : Steady dflt) : Steady (parseCases p false n call cs name v dflt) := by
  match cs with
  | .nil => exact hd
  | .cons value target iv rest =>
    intro s s' h
    simp only [parseCases] at h
    split at h
    · exact parse_steady hcall target name _ _ h
    · exact cases_steady hcall rest name v hd _ _ h

theorem default_steady (hcall : ∀ name, Steady (call name)) (d : SwitchDefault) (name : String) :
    Steady (parseDefault p false n call d name) := by
  match d with
  | .absent =>
    intro s s' h
    cases h
  | .reject =>
    intro s s' h
    cases h
  | .target t iv => exact parse_steady hcall t name

end

/-! ### Rules -/

theorem parseBody_steady (hcall : ∀ name, Steady (call name)) (t : TypeExpr) : Steady (parseBody p false n call t) := by
  cases t with
  | struct fields constraint =>
    intro s s' h
    unfold parseBody at h
    obtain ⟨a, ha, h⟩ := Outcome.bind_eq_ok.1 h
    have hfields := fields_steady hcall fields s a ha
    split at h
    · obtain ⟨b, hb, h⟩ := Outcome.bind_eq_ok.1 h
      exact (check_steady _ _ _ h).trans ((popWindow_steady true _ _ hb).trans hfields)
    · rw [Outcome.ok_bind] at h
      exact (check_steady _ _ _ h).trans hfields
  | bitfield container first rest => exact bits_steady _ 0 (first :: rest)
  | _ => exact parse_steady hcall _ ""

theorem rule_steady (name : String) : Steady (parseRule p false n name) := by
  induction n generalizing name with
  | zero =>
    intro s s' h
    cases h
  | succ n ih =>
    intro s s' h
    unfold parseRule at h
    split at h
    · cases h
    · obtain ⟨a, ha, h⟩ := Outcome.bind_eq_ok.1 h
      cases h
      exact parseBody_steady ih _ s a ha

theorem element_steady (site : LoopSite) : Steady (site.elementParser p n (parseRule p false n)) := by
  obtain ⟨name, element, spec, iv, resync, r, k⟩ := site
  exact (parse_steady rule_steady element "").inWindow iv

/-! ## Traces -/

/-- Past an element. -/
def St.advance (s : St) : St := { s with counter := s.counter.map (· + 1) }

/-- One byte on. -/
def St.skip (s : St) : St := { s with pos := s.pos + 1 }

variable (p) in
/-- From `s`, where `P` is attempted, one byte is skipped for each attempt that fails before the end of the window; at
`e` the attempt is `Q`. Attempts after the first are at `later`. -/
inductive Tries (later : Parser) : Parser → St → Parser → St → Prop
  | here {P s} : Tries later P s P s
  | byte {P s Q e} : P s = .fail → s.pos < s.effectiveEnd p → Tries later later s.skip Q e → Tries later P s Q e

variable (p) in
/-- The elements from `s` on, each with the state it was parsed from, up to the one that leaves `t`. -/
inductive Collects (later : Parser) : Parser → St → List St → St → Prop
  | nil {P s} : Collects later P s [] s
  | cons {P s Q e e' es t} : Tries p later P s Q e → Q e = .ok e' → Collects later later e'.advance es t →
      Collects later P s (e :: es) t

theorem Collects.skipped {later P : Parser} {s e t : St} {es : List St} (hs : P s = .fail) (hp : s.pos < s.effectiveEnd p)
    (h : Collects p later later s.skip (e :: es) t) : Collects p later P s (e :: es) t := by
  cases h with
  | cons ht hok hrest => exact .cons (.byte hs hp ht) hok hrest

end

end Bbq.Cek
