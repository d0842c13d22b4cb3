import Bbq.Ddcgc.Guard

/-!
# What guards do

* `Guard.meaning`: what a guard comes to, by its form.
* `Guard.Calm` says of an accepted guard what `is_pure_guard_expr` does not look at: that the functions of these names
  are no others, and that no list of C takes anything from the arena or puts anything there.
* **`guards_quiet_iff`**: the guards that a dispatch evaluates leave the context and the arena as they were exactly
  when all of them are calm. **`literal_allocates`**: one that is accepted and is not.
-/

namespace Bbq.Ddcgc

open Bbq.Lib Logged

/-- `_concat` leaves the arena: there is nothing to add, or no way to. -/
def CList.Still (a b : CList) : Prop :=
  b.count = 0 ∨ a.oom = true ∨ a.capacity ≤ a.count ∧ intMax / 2 < a.capacity

/-- What `_concat` gives then. -/
def CList.concatStill (a b : CList) : CList :=
  if b.oom ∨ b.count ≠ 0 then { a with oom := true } else a

section Meaning

variable {V : Type} (file : GuardFile) (ops : Operations V) (env : Name → V) (lang : Lang)

mutual

/-- The value of a guard, where lists are empty that would be allocated. -/
def Guard.meaning : Guard → V
  | .intLit n => ops.int n
  | .stringLit s => ops.string s
  | .boolLit b => ops.bool b
  | .nilLit => ops.null
  | .ident x =>
    if file.isConstructor x then ops.answer x []
    else (file.identEnum x).elim (env x) fun (module, sum) => ops.enum module sum x
  | .ternary cond then_ else_ => if ops.truth cond.meaning then then_.meaning else else_.meaning
  | .binOp op left right =>
    let a := left.meaning
    let b := right.meaning
    if op = "+" ∧ file.isList (.binOp op left right) then
      match lang with
      | .cpp => ops.vectorConcat a b
      | .c =>
        if file.hasElems (.binOp op left right) then ops.ofHeader ((ops.header a).concatStill (ops.header b)) else a
    else if lang = .c ∧ (op = "==" ∨ op = "!=") ∧ file.bothStrings left right then
      if ops.same a b then ops.bool (!(op == "!="))
      else if ops.truth a then
        if ops.truth b then ops.bool (ops.sameText a b != (op == "!=")) else ops.bool (op == "!=")
      else ops.bool (op == "!=")
    else if op = "and" then if ops.truth a then ops.bool (ops.truth b) else ops.bool false
    else if op = "or" then if ops.truth a then ops.bool true else ops.bool (ops.truth b)
    else ops.binary op a b
  | .unaryOp op operand => ops.unary op operand.meaning
  | .call fn args =>
    match fn, lang with
    | .ident x, .c => ops.answer (file.symbol .c x) args.meanings
    | .ident x, .cpp =>
      if file.isZeroArgDestVariant x then ops.apply (ops.answer x []) args.meanings
      else ops.answer (file.symbol .cpp x) args.meanings
    | _, _ => ops.null
  | .fieldAcc base field =>
    match file.fieldEnum base field with
    | some (module, sum) => ops.enum module sum field
    | none =>
      if lang = .c ∧ file.isSeqField base field then ops.ofHeader .make else ops.field field base.meaning
  | .indexAcc base index => ops.index base.meaning index.meaning
  | .tupleLit elems => if lang = .c ∧ !file.isTuple (.tupleLit elems) then ops.null else ops.tuple elems.meanings
  | .listLit elems =>
    match lang with
    | .c => if file.hasElems (.listLit elems) then ops.ofHeader .make else ops.null
    | .cpp => ops.vector elems.meanings
  | .destPattern name args => ops.answer name args.meanings
  | .other _ => ops.null

def Guards.meanings : Guards → List V
  | .nil => []
  | .cons head tail => head.meaning :: tail.meanings

end

mutual

/-- **What evaluating a guard must not come upon**, of what is evaluated. -/
def Guard.Calm : Guard → Prop
  | .intLit _ | .stringLit _ | .boolLit _ | .nilLit => True
  | .ident x => if file.isConstructor x then x ∉ file.effectful lang else True
  | .ternary cond then_ else_ =>
    cond.Calm ∧ if ops.truth (cond.meaning file ops env lang) then then_.Calm else else_.Calm
  | .binOp op left right =>
    let a := left.meaning file ops env lang
    let b := right.meaning file ops env lang
    if op = "+" ∧ file.isList (.binOp op left right) then
      match lang with
      | .cpp => left.Calm ∧ right.Calm
      | .c =>
        if file.hasElems (.binOp op left right) then
          left.Calm ∧ right.Calm ∧ (ops.header a).Still (ops.header b)
        else left.Calm
    else if lang = .c ∧ (op = "==" ∨ op = "!=") ∧ file.bothStrings left right then left.Calm ∧ right.Calm
    else if op = "and" then left.Calm ∧ if ops.truth a then right.Calm else True
    else if op = "or" then left.Calm ∧ if ops.truth a then True else right.Calm
    else left.Calm ∧ right.Calm
  | .unaryOp _ operand => operand.Calm
  | .call fn args =>
    match fn with
    | .ident x => file.symbol lang x ∉ file.effectful lang ∧ args.Calm
    | _ => True
  | .fieldAcc base field =>
    match file.fieldEnum base field with
    | some _ => True
    | none =>
      if lang = .c ∧ file.isSeqField base field then
        base.Calm ∧ ops.seqCount field (base.meaning file ops env lang) = 0
      else base.Calm
  | .indexAcc base index => base.Calm ∧ index.Calm
  | .tupleLit elems => if lang = .c ∧ !file.isTuple (.tupleLit elems) then True else elems.Calm
  | .listLit elems =>
    match lang with
    | .c => if file.hasElems (.listLit elems) then elems = .nil else True
    | .cpp => elems.Calm
  | .destPattern name args => args.Calm ∧ name ∉ file.effectful lang
  | .other _ => True

def Guards.Calm : Guards → Prop
  | .nil => True
  | .cons head tail => head.Calm ∧ tail.Calm

end

end Meaning

/-! ## Lists of C -/

namespace CList

theorem pushLog_grows (a : CList) : Grows (pushLog a) := by
  intro log
  rw [pushLog, List.length_append]
  exact Nat.le_add_left _ _

theorem concatFromLog_grows (left : Nat) (a : CList) : Grows (concatFromLog left a) := by
  induction left generalizing a with
  | zero => exact fun _ => Nat.le_refl _
  | succ left ih => exact (pushLog_grows a).andThen ih

/-- A push that changes nothing: of a list that is short, or that gets short by it. -/
theorem pushLog_exactly (a : CList) :
    Exactly (a.oom = true ∨ a.capacity ≤ a.count ∧ intMax / 2 < a.capacity) (pushLog a) { a with oom := true } := by
  by_cases hoom : a.oom = true
  · refine ⟨fun _ log => ?_, fun h => absurd (.inl hoom) h, pushLog_grows a⟩
    rw [pushLog, pushed, if_pos hoom, ← hoom]
    rfl
  · by_cases hfull : a.capacity ≤ a.count
    · by_cases hlarge : intMax / 2 < a.capacity
      · refine ⟨fun _ log => ?_, fun h => absurd (.inr ⟨hfull, hlarge⟩) h, pushLog_grows a⟩
        rw [pushLog, pushed, if_neg hoom, if_pos hfull, if_pos hlarge]
        rfl
      · refine ⟨fun h => absurd h (by tauto), fun _ log => ?_, pushLog_grows a⟩
        rw [pushLog, pushed, if_neg hoom, if_pos hfull, if_neg hlarge]
        exact Nat.lt_of_lt_of_le (Nat.lt_succ_self _) (Nat.le_succ _)
    · refine ⟨fun h => absurd h (by tauto), fun _ log => ?_, pushLog_grows a⟩
      rw [pushLog, pushed, if_neg hoom, if_neg hfull]
      exact Nat.lt_succ_self _

theorem concatFromLog_exactly (left : Nat) (a : CList) :
    Exactly (left = 0 ∨ a.oom = true ∨ a.capacity ≤ a.count ∧ intMax / 2 < a.capacity) (concatFromLog left a)
      (if left = 0 then a else { a with oom := true }) := by
  induction left generalizing a with
  | zero => exact (Exactly.value a).congr (by simp)
  | succ left ih =>
    have hnext := ih { a with oom := true }
    have hsame : (if left = 0 then { a with oom := true } else { a with oom := true } : CList) = { a with oom := true } :=
      ite_self _
    dsimp only at hnext
    rw [hsame] at hnext
    refine ((pushLog_exactly a).andThen hnext (concatFromLog_grows left)).congr ?_
    simp

/-- **`_concat`.** -/
theorem concatLog_exactly (a b : CList) : Exactly (a.Still b) (concatLog a b) (a.concatStill b) := by
  have h := (concatFromLog_exactly b.count a).map fun a => if b.oom then { a with oom := true } else a
  have hvalue : (if b.oom then { (if b.count = 0 then a else { a with oom := true } : CList) with oom := true }
      else (if b.count = 0 then a else { a with oom := true } : CList)) = a.concatStill b := by
    unfold concatStill
    by_cases hcount : b.count = 0 <;> by_cases hoom : b.oom = true <;> simp [hcount, hoom]
  rw [hvalue] at h
  exact h

theorem fromArrLog_exactly (n : Nat) : Exactly (n = 0) (fromArrLog n) make where
  idle hn log := by rw [fromArrLog, if_pos hn]
  busy hn log := by
    rw [fromArrLog, if_neg hn]
    exact Nat.lt_of_lt_of_le (Nat.lt_succ_self _) (Nat.le_succ _)
  grows log := by
    unfold fromArrLog
    split
    · exact Nat.le_refl _
    · exact Nat.le_add_right _ 2

/-- An empty list takes a block for its first element. -/
theorem pushLog_make_busy : Busy (pushLog make) := (pushLog_exactly make).busy (by decide)

end CList

/-! ## Guards -/

section Runs

variable {V : Type} {file : GuardFile} {ops : Operations V} {env : Name → V} {lang : Lang}

/-- **A call** does nothing if the function is pure. -/
theorem callLog_exactly (symbol : String) (args : List V) :
    Exactly (symbol ∉ file.effectful lang) (callLog file ops lang symbol args) (ops.answer symbol args) where
  idle h log := by rw [callLog, if_neg h]
  busy h log := by
    rw [callLog, if_pos (not_not.mp h)]
    exact Nat.lt_succ_self _
  grows log := by
    unfold callLog
    split
    · exact Nat.le_succ _
    · exact Nat.le_refl _

theorem value_grows (v : V) : Grows (ε := Effect) (Logged.value v) := fun _ => Nat.le_refl _

/-- **The comparison of strings** does what its operands do, which are evaluated up to three times. -/
theorem strcmpLog_exactly {P Q : Prop} {left right : Logged Effect V} {a b : V} (negated : Bool)
    (hl : Exactly P left a) (hr : Exactly Q right b) :
    Exactly (P ∧ Q) (strcmpLog ops negated left right)
      (if ops.same a b then ops.bool (!negated)
        else if ops.truth a then
          if ops.truth b then ops.bool (ops.sameText a b != negated) else ops.bool negated
        else ops.bool negated) := by
  have hlast : Grows (left.andThen fun a => right.andThen fun b => Logged.value (ops.bool (ops.sameText a b != negated))) :=
    hl.grows.andThen fun _ => hr.grows.andThen fun _ => value_grows _
  have hagain : Grows (left.andThen fun a =>
      if ops.truth a then right.andThen fun b =>
        if ops.truth b then left.andThen fun a => right.andThen fun b =>
          Logged.value (ops.bool (ops.sameText a b != negated))
        else Logged.value (ops.bool negated)
      else Logged.value (ops.bool negated)) :=
    hl.grows.andThen fun _ => .ite (hr.grows.andThen fun _ => .ite hlast (value_grows _)) (value_grows _)
  refine ⟨?_, ?_, hl.grows.andThen fun _ => hr.grows.andThen fun _ => .ite (value_grows _) hagain⟩
  · rintro ⟨hp, hq⟩
    refine (hl.idle hp).andThen ((hr.idle hq).andThen ?_)
    by_cases hsame : ops.same a b = true
    · rw [if_pos hsame, if_pos hsame]
      exact fun _ => rfl
    · rw [if_neg hsame, if_neg hsame]
      refine (hl.idle hp).andThen ?_
      by_cases hta : ops.truth a = true
      · rw [if_pos hta, if_pos hta]
        refine (hr.idle hq).andThen ?_
        by_cases htb : ops.truth b = true
        · rw [if_pos htb, if_pos htb]
          exact (hl.idle hp).andThen ((hr.idle hq).andThen fun _ => rfl)
        · rw [if_neg htb, if_neg htb]
          exact fun _ => rfl
      · rw [if_neg hta, if_neg hta]
        exact fun _ => rfl
  · intro h
    by_cases hp : P
    · refine (hl.idle hp).andThen_busy ((hr.busy fun hq => h ⟨hp, hq⟩).andThen fun _ => ?_)
      exact .ite (value_grows _) hagain
    · refine (hl.busy hp).andThen fun _ => hr.grows.andThen fun _ => ?_
      exact .ite (value_grows _) hagain

mutual

/-- **An accepted guard** does nothing exactly if it is calm, and comes to its meaning. -/
theorem Guard.exactly (e : Guard) (h : e.isPure file.predicates = true) :
    Exactly (e.Calm file ops env lang) (e.run file ops env lang) (e.meaning file ops env lang) := by
  cases e with
  | intLit n => exact .value _
  | stringLit s => exact .value _
  | boolLit b => exact .value _
  | nilLit => exact .value _
  | ident x =>
    exact .ite (fun _ => callLog_exactly x []) fun _ => .value _
  | ternary cond then_ else_ =>
    rw [Guard.isPure, Bool.and_eq_true, Bool.and_eq_true] at h
    obtain ⟨⟨hcond, hthen⟩, helse⟩ := h
    have ht := Guard.exactly then_ hthen
    have he := Guard.exactly else_ helse
    exact (Guard.exactly cond hcond).andThen (.ite (fun _ => ht) fun _ => he) fun _ => .ite ht.grows he.grows
  | binOp op left right =>
    rw [Guard.isPure, Bool.and_eq_true] at h
    have hl := Guard.exactly left h.1
    have hr := Guard.exactly right h.2
    refine .ite (fun _ => ?_) fun _ => .ite (fun _ => strcmpLog_exactly _ hl hr) fun _ =>
      .ite (fun _ => ?_) fun _ => .ite (fun _ => ?_) fun _ => ?_
    · cases lang with
      | cpp => exact hl.andThen (hr.map _) fun _ => (hr.map _).grows
      | c =>
        refine .ite (fun _ => ?_) fun _ => hl
        have hconcat := fun a b : V => (CList.concatLog_exactly (ops.header a) (ops.header b)).map ops.ofHeader
        exact hl.andThen (hr.andThen (hconcat _ _) fun _ => (hconcat _ _).grows) fun _ =>
          hr.grows.andThen fun _ => (hconcat _ _).grows
    · exact hl.andThen (.ite (fun _ => hr.map _) fun _ => .value _) fun _ => .ite (hr.map _).grows (value_grows _)
    · exact hl.andThen (.ite (fun _ => .value _) fun _ => hr.map _) fun _ => .ite (value_grows _) (hr.map _).grows
    · exact hl.andThen (hr.map _) fun _ => (hr.map _).grows
  | unaryOp op operand => exact (Guard.exactly operand h).map _
  | call fn args =>
    cases fn with
    | ident x =>
      obtain ⟨hx, hargs⟩ := Bool.and_eq_true_iff.mp h
      have ha := Guards.exactly args hargs
      have hcall := fun vs => @callLog_exactly V file ops lang (file.symbol lang x) vs
      have hcalled := (ha.andThen (hcall _) fun _ => (hcall _).grows).congr and_comm
      cases lang with
      | c =>
        have hnamed : (file.auxiliaries ++ file.predicates ++ file.funs).contains x = true := by
          rw [List.contains_iff_mem] at hx ⊢
          exact List.mem_append_left _ (List.mem_append_right _ hx)
        rw [Guard.run, if_pos hnamed]
        exact hcalled
      | cpp =>
        rw [Guard.run, Guard.meaning]
        by_cases hvariant : file.isZeroArgDestVariant x = true
        · rw [if_pos hvariant, if_pos hvariant]
          exact (callLog_exactly x []).andThen (ha.map _) fun _ => (ha.map _).grows
        · rw [if_neg hvariant, if_neg hvariant]
          exact hcalled
    | _ => exact absurd h Bool.false_ne_true
  | fieldAcc base field =>
    have hb := Guard.exactly base h
    rw [Guard.Calm, Guard.run, Guard.meaning]
    cases file.fieldEnum base field with
    | some e => exact .value _
    | none =>
      refine .ite (fun _ => ?_) fun _ => hb.map _
      have harr := fun v => (CList.fromArrLog_exactly (ops.seqCount field v)).map ops.ofHeader
      refine (hb.andThen (hb.andThen (harr _) fun _ => (harr _).grows) fun _ =>
        hb.grows.andThen fun _ => (harr _).grows).congr ?_
      exact ⟨fun h => h.2, fun h => ⟨h.1, h⟩⟩
  | indexAcc base index =>
    rw [Guard.isPure, Bool.and_eq_true] at h
    have hi := Guard.exactly index h.2
    exact (Guard.exactly base h.1).andThen (hi.map _) fun _ => (hi.map _).grows
  | tupleLit elems => exact .ite (fun _ => .value _) fun _ => (Guards.exactly elems h).map _
  | listLit elems =>
    have he := Guards.exactly elems h
    have hpush : Exactly (elems = .nil) (elems.push file ops env lang .make) CList.make := by
      cases elems with
      | nil => exact (Exactly.value _).congr ⟨fun _ => rfl, fun _ => trivial⟩
      | cons head tail =>
        refine ⟨fun h => absurd h nofun, fun _ => ?_, Guards.push_grows (.cons head tail) h .make⟩
        obtain ⟨hhead, htail⟩ := Bool.and_eq_true_iff.mp h
        exact (Guard.exactly head hhead).grows.andThen_busy fun _ =>
          CList.pushLog_make_busy.andThen (Guards.push_grows tail htail)
    cases lang with
    | cpp => exact he.map _
    | c => exact .ite (fun _ => hpush.map _) fun _ => .value _
  | destPattern name args =>
    exact (Guards.exactly args h).andThen (callLog_exactly name _) fun _ => (callLog_exactly name _).grows
  | other site => exact absurd h Bool.false_ne_true

theorem Guards.exactly (es : Guards) (h : es.arePure file.predicates = true) :
    Exactly (es.Calm file ops env lang) (es.run file ops env lang) (es.meanings file ops env lang) := by
  cases es with
  | nil => exact .value _
  | cons head tail =>
    rw [Guards.arePure, Bool.and_eq_true] at h
    have ht := Guards.exactly tail h.2
    exact (Guard.exactly head h.1).andThen (ht.map _) fun _ => (ht.map _).grows

theorem Guards.push_grows (es : Guards) (h : es.arePure file.predicates = true) (a : CList) :
    Grows (es.push file ops env lang a) := by
  cases es with
  | nil => exact fun _ => Nat.le_refl _
  | cons head tail =>
    rw [Guards.arePure, Bool.and_eq_true] at h
    exact (Guard.exactly head h.1).grows.andThen fun _ =>
      (CList.pushLog_grows a).andThen (Guards.push_grows tail h.2)

end

end Runs

/-! ## A dispatch -/

section Dispatch

variable {V : Type} (file : GuardFile) (ops : Operations V) (lang : Lang)

/-- The guards that a dispatch evaluates, each under the bindings of its rule. -/
def runGuards : List (Guard × (Name → V)) → Logged Effect (List V)
  | [] => .value []
  | (e, env) :: gs => (e.run file ops env lang).andThen fun v => (runGuards gs).andThen fun vs => .value (v :: vs)

theorem runGuards_exactly (gs : List (Guard × (Name → V))) (h : ∀ g ∈ gs, g.1.isPure file.predicates = true) :
    Exactly (∀ g ∈ gs, g.1.Calm file ops g.2 lang) (runGuards file ops lang gs)
      (gs.map fun g => g.1.meaning file ops g.2 lang) := by
  induction gs with
  | nil => exact (Exactly.value _).congr ⟨fun _ => List.forall_mem_nil _, fun _ => trivial⟩
  | cons g gs ih =>
    obtain ⟨hg, hgs⟩ := List.forall_mem_cons.mp h
    have hrest := (ih hgs).map fun vs => g.1.meaning file ops g.2 lang :: vs
    refine ((Guard.exactly g.1 hg).andThen hrest fun v => ((ih hgs).map fun vs => v :: vs).grows).congr ?_
    exact (List.forall_mem_cons (p := fun g : Guard × (Name → V) => g.1.Calm file ops g.2 lang)).symm

end Dispatch

/-- **Guards have no effects** exactly if they are calm: whatever guards of losing rules were evaluated, the context
and the arena are as they were. -/
theorem guards_quiet_iff {V : Type} (file : GuardFile) (ops : Operations V) (lang : Lang)
    (gs : List (Guard × (Name → V))) (h : ∀ g ∈ gs, g.1.isPure file.predicates = true) (log : List Effect) :
    (runGuards file ops lang gs log).2 = log ↔ ∀ g ∈ gs, g.1.Calm file ops g.2 lang :=
  (runGuards_exactly file ops lang gs h).unchanged_iff log

/-- Numbers, truth values and lists. -/
inductive Datum
  | num (n : Int)
  | flag (b : Bool)
  | list (a : CList)
  | none

def datumOps : Operations Datum where
  int := .num
  string _ := .none
  bool := .flag
  null := .none
  enum _ _ _ := .none
  truth
    | .flag b => b
    | _ => false
  same _ _ := false
  sameText _ _ := false
  binary
    | "==", .num m, .num n => .flag (m == n)
    | ">", .num m, .num n => .flag (n < m)
    | _, _, _ => .none
  unary
    | "not", .flag b => .flag !b
    | _, _ => .none
  field
    | "count", .list a => .num a.count
    | _, _ => .none
  index _ _ := .none
  tuple _ := .none
  vector vs := .list { data := none, count := vs.length, capacity := vs.length, oom := false }
  vectorConcat _ b := b
  header
    | .list a => a
    | _ => .make
  ofHeader := .list
  seqCount _ _ := 0
  apply _ _ := .none
  answer _ _ := .flag true
  effectful _ _ _ := .none

/-- A file without functions, whose only lists are literals. -/
def plainFile : GuardFile where
  compilerPrefix := "cg"
  auxiliaries := []
  predicates := ["ready"]
  funs := []
  variants := []
  sums := []
  schemas _ := none
  types
    | .listLit _ => some (.list [.other])
    | _ => some .other

/-- `where ready(x) and x > 0` -/
theorem guards_quiet_plain :
    (runGuards plainFile datumOps .c
      [(.binOp "and" (.call (.ident "ready") (.cons (.ident "x") .nil)) (.binOp ">" (.ident "x") (.intLit 0)),
        fun _ => .num 3)] []).2 = [] := by
  refine (guards_quiet_iff plainFile datumOps .c _ (by decide) []).mpr ?_
  intro g hg
  obtain rfl := List.mem_singleton.mp hg
  simp [Guard.Calm, Guards.Calm, Guard.meaning, GuardFile.effectful, GuardFile.isConstructor,
    GuardFile.isZeroArgDestVariant, plainFile, datumOps, GuardFile.bothStrings, GuardFile.isString]

/-- **`where [x].count == 1`** is accepted, and in C takes a block of the arena each time. -/
theorem literal_allocates :
    let e : Guard := .binOp "==" (.fieldAcc (.listLit (.cons (.ident "x") .nil)) "count") (.intLit 1)
    e.isPure plainFile.predicates = true ∧
      (runGuards plainFile datumOps .c [(e, fun _ => .num 3)] []).2 ≠ [] := by
  decide +kernel

end Bbq.Ddcgc
