import Bbq.Cek.Eval
import Mathlib.Tactic.Ring

/-!
# Where an expression has a value

`eval` gives every operator a result. In C++ a signed overflow, a shift by a negative number or past the width, and the
division of the least integer by -1 have none (`backends/cek/Machine.cpp:391-478, 604-618, 763-780`).

* `evalWith`: the evaluator over the operators `Ops`. Over C++'s (`cpp`) it is the code; over those of the integers,
  reduced to 64 bits (`exact`), it is what should come out.
* `Safe`: no operator that is reached is applied where C++ gives it no result.
* `Tracks.eval`: an evaluator whose operators keep to a relation with those of `eval` keeps to it as a whole.
* **`defined_iff`**: the code evaluates an expression as it should exactly where it is safe. `division_undefined`: not
  everywhere.
-/

namespace Bbq.Cek

/-! ## Evaluators -/

/-- What an evaluator does with its operands. -/
structure Ops (ε : Type) where
  fail : String → ε
  binOp : BinOp → Option Value → Option Value → Except ε (Option Value)
  unaryOp : UnaryOp → Option Value → Except ε (Option Value)
  call : View → String → List (Option Value) → Except ε (Option Value)

namespace Ops

variable {ε α : Type} (O : Ops ε)

def lift : Eval α → Except ε α
  | .ok a => .ok a
  | .error text => .error (O.fail text)

end Ops

/-- `NormalizeKont`: the right operand of `&&` or `||`. -/
def normalized (v : Option Value) : Eval (Option Value) :=
  (expectBool "type error: && or || (right)" v).map fun b => some (.bool b)

section

variable {ε : Type} (O : Ops ε) (w : View)

mutual

/-- `eval` over other operators. -/
def evalWith : Expr → Except ε (Option Value)
  | .intLit v => .ok (some (.int v))
  | .floatLit v => .ok (some (.float v))
  | .strLit v => .ok (some (.string v))
  | .boolLit v => .ok (some (.bool v))
  | .endianLit v => .ok (some (.bool (v == .little)))
  | .eoi => .ok (some (.int (.ofNat w.input.length)))
  | .builtin n => O.lift (evalBuiltin w n)
  | .ref (.simple name _) => O.lift (evalRef w name)
  | .ref (.fieldAcc base field) => evalPathWith (.fieldAcc base field) >>= fun c => O.lift (captureValue w c)
  | .ref (.indexAcc base index) => evalPathWith (.indexAcc base index) >>= fun c => O.lift (captureValue w c)
  | .call func args => evalArgsWith args >>= O.call w func
  | .unaryOp op operand => evalWith operand >>= O.unaryOp op
  | .ternary cond thenBranch elseBranch =>
    evalWith cond >>= fun v => O.lift (expectBool "type error: ternary cond" v) >>= fun b =>
      if b then evalWith thenBranch else evalWith elseBranch
  | .binOp left op right =>
    match op with
    | .and =>
      evalWith left >>= fun v => O.lift (expectBool "type error: && (left)" v) >>= fun b =>
        if b then evalWith right >>= fun v => O.lift (normalized v) else .ok (some (.bool false))
    | .or =>
      evalWith left >>= fun v => O.lift (expectBool "type error: || (left)" v) >>= fun b =>
        if b then .ok (some (.bool true)) else evalWith right >>= fun v => O.lift (normalized v)
    | op => evalWith right >>= fun rhs => evalWith left >>= fun lhs => O.binOp op lhs rhs

def evalPathWith : RefPath → Except ε Capture
  | .simple name _ =>
    match w.findField name with
    | some c => .ok c
    | none => .error (O.fail "path: field not found")
  | .fieldAcc base field => evalPathWith base >>= fun c =>
    match c.findChild field with
    | some c => .ok c
    | none => .error (O.fail "path: field not in capture")
  | .indexAcc base index => evalWith index >>= fun i => evalPathWith base >>= fun c =>
    match i with
    | some (.int i) =>
      match c.findChildAt i with
      | some k => .ok k
      | none => .error (O.fail "path: index out of range")
    | _ => .error (O.fail "path: index not integer")

def evalArgsWith : Args → Except ε (List (Option Value))
  | .nil => .ok []
  | .cons arg rest => evalWith arg >>= fun v => evalArgsWith rest >>= fun vs => .ok (v :: vs)

end

end

/-! ## Operators of C++ and of the integers -/

/-- Out of the range of `int64_t`. -/
def overflows (v : Int) : Bool := decide (v < -2 ^ 63) || decide (2 ^ 63 ≤ v)

/-- What an operator makes of two integers. -/
def exactInt : BinOp → Int → Int → Int
  | .add, a, b => a + b
  | .sub, a, b => a - b
  | .mul, a, b => a * b
  | .div, a, b => a.tdiv b
  | .mod, a, b => a.tmod b
  | .bitAnd, a, b => (BitVec.ofInt 64 a &&& BitVec.ofInt 64 b).toInt
  | .bitOr, a, b => (BitVec.ofInt 64 a ||| BitVec.ofInt 64 b).toInt
  | .bitXor, a, b => (BitVec.ofInt 64 a ^^^ BitVec.ofInt 64 b).toInt
  | .shl, a, b => a * 2 ^ b.toNat
  | .shr, a, b => a / 2 ^ b.toNat
  | _, a, _ => a

/-- C++17 gives the operator no result: a signed overflow, the quotient of a division or a remainder included, a shift by
a negative number or past the width, and the left shift of a negative number or out of the unsigned width. -/
def undefinedInt (op : BinOp) (a b : Int) : Bool :=
  match op with
  | .add | .sub | .mul => overflows (exactInt op a b)
  | .div | .mod => decide (b ≠ 0) && overflows (a.tdiv b)
  | .shl => decide (b < 0) || decide (64 ≤ b) || decide (a < 0) || decide (2 ^ 64 ≤ exactInt op a b)
  | .shr => decide (b < 0) || decide (64 ≤ b)
  | _ => false

def undefinedBinOp (op : BinOp) : Option Value → Option Value → Bool
  | some (.int a), some (.int b) => undefinedInt op a.toInt b.toInt
  | _, _ => false

def undefinedUnaryOp : UnaryOp → Option Value → Bool
  | .neg, some (.int i) => overflows (-i.toInt)
  | _, _ => false

/-- `abs` negates what is negative. -/
def undefinedCall (func : String) (args : List (Option Value)) : Bool :=
  match args with
  | [some (.int x)] => func == "abs" && overflows |x.toInt|
  | _ => false

/-- What ends the evaluation of an expression: `fail()`, or an operation without a result. -/
inductive Stop
  | failed (text : String)
  | undefined
  deriving DecidableEq, Repr

/-- An operation that may have no result. -/
def guarded {α : Type} (undefined : Bool) (o : Eval α) : Except Stop α :=
  if undefined then .error .undefined
  else match o with
    | .ok a => .ok a
    | .error text => .error (.failed text)

/-- The code's operators. -/
def cpp : Ops Stop where
  fail := .failed
  binOp op lhs rhs := guarded (undefinedBinOp op lhs rhs) (applyBinOp op lhs rhs)
  unaryOp op v := guarded (undefinedUnaryOp op v) (applyUnaryOp op v)
  call w func args := guarded (undefinedCall func args) (applyCall w func args)

/-- Integer operators without a bound, reduced to 64 bits. No number is divided by zero or shifted by a negative one. -/
def exactBinOp (op : BinOp) (lhs rhs : Option Value) : Eval (Option Value) :=
  match op, lhs, rhs with
  | .add, some (.int a), some (.int b) | .sub, some (.int a), some (.int b) | .mul, some (.int a), some (.int b)
  | .bitAnd, some (.int a), some (.int b) | .bitOr, some (.int a), some (.int b) | .bitXor, some (.int a), some (.int b) =>
    .ok (some (.int (.ofInt (exactInt op a.toInt b.toInt))))
  | .div, some (.int a), some (.int b) | .mod, some (.int a), some (.int b) =>
    if b = 0 then .error "division by zero" else .ok (some (.int (.ofInt (exactInt op a.toInt b.toInt))))
  | .shl, some (.int a), some (.int b) | .shr, some (.int a), some (.int b) =>
    if b.toInt < 0 then .error "negative shift" else .ok (some (.int (.ofInt (exactInt op a.toInt b.toInt))))
  | _, _, _ => applyBinOp op lhs rhs

def exactUnaryOp (op : UnaryOp) (v : Option Value) : Eval (Option Value) :=
  match op, v with
  | .neg, some (.int i) => .ok (some (.int (.ofInt (-i.toInt))))
  | .bitNot, some (.int i) => .ok (some (.int (.ofInt (-i.toInt - 1))))
  | _, _ => applyUnaryOp op v

def exactCall (w : View) (func : String) (args : List (Option Value)) : Eval (Option Value) :=
  match args with
  | [some (.int x)] => if func = "abs" then .ok (some (.int (.ofInt |x.toInt|))) else applyCall w func args
  | _ => applyCall w func args

/-- What should come out. -/
def exact : Ops String := ⟨id, exactBinOp, exactUnaryOp, exactCall⟩

/-! ## Safe expressions -/

section

variable (w : View)

mutual

/-- No operator that the evaluation reaches is applied where C++ gives it no result. -/
def Safe : Expr → Prop
  | .ref (.fieldAcc base field) => SafePath (.fieldAcc base field)
  | .ref (.indexAcc base index) => SafePath (.indexAcc base index)
  | .call func args => SafeArgs args ∧ ∀ vs, evalArgs w args = .ok vs → undefinedCall func vs = false
  | .unaryOp op operand => Safe operand ∧ ∀ v, eval w operand = .ok v → undefinedUnaryOp op v = false
  | .ternary cond thenBranch elseBranch => Safe cond ∧ ∀ v, eval w cond = .ok v →
    ∀ b, coerceToBool v = some b → if b then Safe thenBranch else Safe elseBranch
  | .binOp left op right =>
    match op with
    | .and => Safe left ∧ ∀ v, eval w left = .ok v → ∀ b, coerceToBool v = some b → if b then Safe right else True
    | .or => Safe left ∧ ∀ v, eval w left = .ok v → ∀ b, coerceToBool v = some b → if b then True else Safe right
    | op => Safe right ∧ ∀ rhs, eval w right = .ok rhs →
      Safe left ∧ ∀ lhs, eval w left = .ok lhs → undefinedBinOp op lhs rhs = false
  | _ => True

def SafePath : RefPath → Prop
  | .simple _ _ => True
  | .fieldAcc base _ => SafePath base
  | .indexAcc base index => Safe index ∧ ∀ i, eval w index = .ok i → SafePath base

def SafeArgs : Args → Prop
  | .nil => True
  | .cons arg rest => Safe arg ∧ ∀ v, eval w arg = .ok v → SafeArgs rest

end

end

/-! ## Following `eval` -/

/-- `Rel S o o'`: an evaluation that is safe if and only if `S` ends in `o` where `eval` ends in `o'`. The operators keep
to such a relation, and sequences of evaluations do. -/
structure Tracks {ε : Type} (O : Ops ε) (w : View) (Rel : (α : Type) → Prop → Except ε α → Eval α → Prop) : Prop where
  lift : ∀ {α : Type} (o : Eval α), Rel α True (O.lift o) o
  bind : ∀ {α β : Type} {S : Prop} {T : α → Prop} {o : Except ε α} {o' : Eval α} {f : α → Except ε β}
    {f' : α → Eval β}, Rel α S o o' → (∀ v, o' = .ok v → Rel β (T v) (f v) (f' v)) →
    Rel β (S ∧ ∀ v, o' = .ok v → T v) (o >>= f) (o' >>= f')
  binOp : ∀ op lhs rhs, Rel _ (undefinedBinOp op lhs rhs = false) (O.binOp op lhs rhs) (applyBinOp op lhs rhs)
  unaryOp : ∀ op v, Rel _ (undefinedUnaryOp op v = false) (O.unaryOp op v) (applyUnaryOp op v)
  call : ∀ func args, Rel _ (undefinedCall func args = false) (O.call w func args) (applyCall w func args)

theorem expectBool_ok {text : String} {v : Option Value} {b : Bool} :
    expectBool text v = .ok b ↔ coerceToBool v = some b := by
  unfold expectBool
  cases coerceToBool v <;> simp

theorem eval_and (w : View) (left right : Expr) :
    eval w (.binOp left .and right) = (eval w left >>= fun v => expectBool "type error: && (left)" v >>= fun b =>
      if b then eval w right >>= normalized else .ok (some (.bool false))) := by
  rfl

theorem eval_or (w : View) (left right : Expr) :
    eval w (.binOp left .or right) = (eval w left >>= fun v => expectBool "type error: || (left)" v >>= fun b =>
      if b then .ok (some (.bool true)) else eval w right >>= normalized) := by
  rfl

namespace Tracks

variable {ε : Type} {O : Ops ε} {w : View} {Rel : (α : Type) → Prop → Except ε α → Eval α → Prop}
  (h : Tracks O w Rel)

include h

theorem ok {α : Type} (a : α) : Rel α True (.ok a) (.ok a) := h.lift (.ok a)

theorem fail {α : Type} (text : String) : Rel α True (.error (O.fail text)) (.error text) := h.lift (.error text)

/-- What follows is safe. -/
theorem andThen {α β : Type} {S : Prop} {o : Except ε α} {o' : Eval α} {f : α → Except ε β} {f' : α → Eval β}
    (ho : Rel α S o o') (hf : ∀ v, Rel β True (f v) (f' v)) : Rel β S (o >>= f) (o' >>= f') := by
  have hb := h.bind ho fun v _ => hf v
  simpa only [implies_true, and_true] using hb

/-- A condition and what it chooses. -/
theorem cond {β : Type} {S : Prop} {T : Bool → Prop} {text : String} {o : Except ε (Option Value)}
    {o' : Eval (Option Value)} {f : Bool → Except ε β} {f' : Bool → Eval β} (ho : Rel _ S o o')
    (hf : ∀ v b, o' = .ok v → coerceToBool v = some b → Rel β (T b) (f b) (f' b)) :
    Rel β (S ∧ ∀ v, o' = .ok v → ∀ b, coerceToBool v = some b → T b)
      (o >>= fun v => O.lift (expectBool text v) >>= f) (o' >>= fun v => expectBool text v >>= f') := by
  refine h.bind ho fun v hv => ?_
  have hb := h.bind (h.lift (expectBool text v)) fun b hb => hf v b hv (expectBool_ok.1 hb)
  simpa only [true_and, expectBool_ok] using hb

/-- The right operand of `&&` or `||`. -/
theorem second {S : Prop} {o : Except ε (Option Value)} {o' : Eval (Option Value)} (ho : Rel _ S o o') :
    Rel _ S (o >>= fun v => O.lift (normalized v)) (o' >>= normalized) :=
  h.andThen ho fun v => h.lift (normalized v)

end Tracks

section

variable {ε : Type} {O : Ops ε} {w : View} {Rel : (α : Type) → Prop → Except ε α → Eval α → Prop}

mutual

theorem Tracks.eval (h : Tracks O w Rel) : (e : Expr) → Rel _ (Safe w e) (evalWith O w e) (Cek.eval w e)
  | .intLit _ => h.ok _
  | .floatLit _ => h.ok _
  | .strLit _ => h.ok _
  | .boolLit _ => h.ok _
  | .endianLit _ => h.ok _
  | .eoi => h.ok _
  | .builtin n => h.lift (evalBuiltin w n)
  | .ref (.simple name _) => h.lift (evalRef w name)
  | .ref (.fieldAcc base field) => h.andThen (h.path (.fieldAcc base field)) fun c => h.lift (captureValue w c)
  | .ref (.indexAcc base index) => h.andThen (h.path (.indexAcc base index)) fun c => h.lift (captureValue w c)
  | .call func args => h.bind (h.args args) fun vs _ => h.call func vs
  | .unaryOp op operand => h.bind (h.eval operand) fun v _ => h.unaryOp op v
  | .ternary cond thenBranch elseBranch => by
    refine h.cond (h.eval cond) fun v b _ _ => ?_
    cases b
    · exact h.eval elseBranch
    · exact h.eval thenBranch
  | .binOp left op right =>
    have hleft := h.eval left
    have hright := h.eval right
    match op with
    | .and => by
      rw [eval_and]
      refine h.cond hleft fun v b _ _ => ?_
      cases b
      · exact h.ok _
      · exact h.second hright
    | .or => by
      rw [eval_or]
      refine h.cond hleft fun v b _ _ => ?_
      cases b
      · exact h.second hright
      · exact h.ok _
    | .add | .sub | .mul | .div | .mod | .bitAnd | .bitOr | .bitXor | .shl | .shr | .eq | .ne | .lt | .le | .gt | .ge =>
      h.bind hright fun rhs _ => h.bind hleft fun lhs _ => h.binOp _ lhs rhs

theorem Tracks.path (h : Tracks O w Rel) : (p : RefPath) → Rel _ (SafePath w p) (evalPathWith O w p) (evalPath w p)
  | .simple name _ => by
    cases hf : w.findField name <;> simp only [SafePath, evalPathWith, evalPath, hf]
    · exact h.fail _
    · exact h.ok _
  | .fieldAcc base field => by
    refine h.andThen (h.path base) fun c => ?_
    cases c.findChild field
    · exact h.fail _
    · exact h.ok _
  | .indexAcc base index => by
    refine h.bind (h.eval index) fun i _ => h.andThen (h.path base) fun c => ?_
    rcases i with _ | i | _ | _ | _ | _
    · exact h.fail _
    · dsimp only
      cases c.findChildAt i
      · exact h.fail _
      · exact h.ok _
    all_goals exact h.fail _

theorem Tracks.args (h : Tracks O w Rel) : (as : Args) → Rel _ (SafeArgs w as) (evalArgsWith O w as) (evalArgs w as)
  | .nil => h.ok _
  | .cons arg rest => h.bind (h.eval arg) fun v _ => h.andThen (h.args rest) fun vs => h.ok (v :: vs)

end

end

/-! ## What the operators make of integers -/

theorem smod_width {b : Int64} (h0 : 0 ≤ b.toInt) (h64 : b.toInt < 64) :
    (b.toBitVec.smod 64).toNat = b.toInt.toNat := by
  have h : (b.toBitVec.smod 64).toInt = b.toInt := by
    rw [BitVec.toInt_smod]
    exact Int.fmod_eq_of_lt h0 h64
  have hn := BitVec.toInt_eq_toNat_cond (b.toBitVec.smod 64)
  split at hn <;> omega

theorem ofInt_tmod (a b : Int64) : .ofInt (a.toInt.tmod b.toInt) = a % b := by
  rw [← Int64.toInt_mod, Int64.ofInt_toInt]

theorem ofInt_tdiv (a b : Int64) : .ofInt (a.toInt.tdiv b.toInt) = a / b := by
  rw [← Int64.toInt_inj, Int64.toInt_div, Int64.toInt_ofInt]

theorem ofInt_shl {a b : Int64} (ha : 0 ≤ a.toInt) (h0 : 0 ≤ b.toInt) (h64 : b.toInt < 64) :
    .ofInt (a.toInt * 2 ^ b.toInt.toNat) = a <<< b := by
  have hn := BitVec.toInt_eq_toNat_cond a.toBitVec
  have hnat : (a.toBitVec.toNat : Int) = a.toInt := by
    rw [Int64.toInt_toBitVec] at hn
    split at hn <;> omega
  rw [← Int64.toBitVec_inj, Int64.toBitVec_ofInt, Int64.toBitVec_shiftLeft, BitVec.shiftLeft_eq', smod_width h0 h64]
  apply BitVec.eq_of_toInt_eq
  rw [BitVec.toInt_ofInt, BitVec.toInt_shiftLeft, Nat.shiftLeft_eq]
  push_cast
  rw [hnat]

theorem ofInt_shr {a b : Int64} (h0 : 0 ≤ b.toInt) (h64 : b.toInt < 64) :
    .ofInt (a.toInt / 2 ^ b.toInt.toNat) = a >>> b := by
  have h : (a >>> b).toInt = a.toInt / 2 ^ b.toInt.toNat := by
    rw [← Int64.toInt_toBitVec, Int64.toBitVec_shiftRight, BitVec.sshiftRight_eq', smod_width h0 h64,
      BitVec.toInt_sshiftRight, Int.shiftRight_eq_div_pow, Int64.toInt_toBitVec]
    push_cast
    rfl
  rw [← h, Int64.ofInt_toInt]

theorem ofInt_exact {op : BinOp} {a b : Int64} (h : undefinedBinOp op (some (.int a)) (some (.int b)) = false) :
    .ofInt (exactInt op a.toInt b.toInt) = intArith op a b := by
  simp only [undefinedBinOp] at h
  cases op with
  | add | sub | mul => simp [exactInt, intArith]
  | div => exact ofInt_tdiv a b
  | mod => exact ofInt_tmod a b
  | bitAnd | bitOr | bitXor =>
    rw [← Int64.toBitVec_inj, exactInt, Int64.toBitVec_ofInt, BitVec.ofInt_toInt]
    simp [intArith]
  | shl =>
    simp only [undefinedInt, Bool.or_eq_false_iff, decide_eq_false_iff_not, Int.not_lt, Int.not_le] at h
    exact ofInt_shl h.1.2 h.1.1.1 h.1.1.2
  | shr =>
    simp only [undefinedInt, Bool.or_eq_false_iff, decide_eq_false_iff_not, Int.not_lt, Int.not_le] at h
    exact ofInt_shr h.1 h.2
  | _ => exact Int64.ofInt_toInt a

theorem ofInt_abs (a : Int64) : .ofInt |a.toInt| = if a < 0 then -a else a := by
  have ha : a < 0 ↔ a.toInt < 0 := Int64.lt_iff_toInt_lt
  split
  case isTrue h => rw [abs_of_neg (ha.1 h), Int64.ofInt_neg, Int64.ofInt_toInt]
  case isFalse h => rw [abs_of_nonneg (not_lt.1 (mt ha.2 h)), Int64.ofInt_toInt]

/-! ## Code and integers -/

/-- An evaluation by the code: safe, it ends as `eval` does, and it has no result otherwise. -/
theorem cpp_tracks (w : View) :
    Tracks cpp w fun _ S o o' => S ∧ o = cpp.lift o' ∨ ¬ S ∧ o = .error .undefined := by
  have guard {α : Type} (b : Bool) (o : Eval α) :
      b = false ∧ guarded b o = cpp.lift o ∨ ¬ b = false ∧ guarded b o = .error .undefined := by
    cases b
    · left
      cases o <;> exact ⟨rfl, rfl⟩
    · right
      exact ⟨(fun h => by cases h), rfl⟩
  refine ⟨fun o => .inl ⟨trivial, rfl⟩, ?_, fun _ _ _ => guard _ _, fun _ _ => guard _ _, fun _ _ => guard _ _⟩
  rintro α β S T o o' f f' (⟨hs, rfl⟩ | ⟨hs, rfl⟩) hf
  · cases o' with
    | error text => exact .inl ⟨⟨hs, fun _ h => by cases h⟩, rfl⟩
    | ok v =>
      rcases hf v rfl with ⟨ht, hv⟩ | ⟨ht, hv⟩
      · exact .inl ⟨⟨hs, fun _ h => by cases h; exact ht⟩, hv⟩
      · exact .inr ⟨fun h => ht (h.2 v rfl), hv⟩
  · exact .inr ⟨fun h => hs h.1, rfl⟩

theorem exactBinOp_eq {op : BinOp} {lhs rhs : Option Value} (h : undefinedBinOp op lhs rhs = false) :
    exactBinOp op lhs rhs = applyBinOp op lhs rhs := by
  unfold exactBinOp
  split
  all_goals first | rfl | rename_i a b
  case h_1 | h_2 | h_3 | h_4 | h_5 | h_6 | h_7 | h_8 =>
    rw [ofInt_exact h]
    simp [applyBinOp, applyArith, applyBitwise]
  case h_9 | h_10 =>
    have hb : ¬ b.toInt < 0 := by
      simp only [undefinedBinOp, undefinedInt, Bool.or_eq_false_iff, decide_eq_false_iff_not] at h
      omega
    rw [if_neg hb, ofInt_exact h]
    rfl

theorem exactUnaryOp_eq (op : UnaryOp) (v : Option Value) : exactUnaryOp op v = applyUnaryOp op v := by
  unfold exactUnaryOp
  split
  · simp [applyUnaryOp]
  · rename_i i
    have hnot : .ofInt (-i.toInt - 1) = ~~~i := by rw [← Int64.toInt_inj, Int64.toInt_not, Int64.toInt_ofInt]
    rw [hnot]
    rfl
  · rfl

theorem exactCall_eq (w : View) (func : String) (args : List (Option Value)) :
    exactCall w func args = applyCall w func args := by
  unfold exactCall
  split
  · split
    case isTrue h =>
      subst h
      rw [ofInt_abs]
      rfl
    case isFalse => rfl
  · rfl

/-- A safe evaluation over the integers ends as `eval` does. -/
theorem exact_tracks (w : View) : Tracks exact w fun _ S o o' => S → o = o' := by
  refine ⟨fun o _ => by cases o <;> rfl, ?_, fun _ _ _ => exactBinOp_eq, fun _ _ _ => exactUnaryOp_eq _ _,
    fun _ _ _ => exactCall_eq w _ _⟩
  rintro α β S T o o' f f' ho hf ⟨hs, ht⟩
  obtain rfl := ho hs
  cases o with
  | error text => rfl
  | ok v => exact hf v rfl (ht v rfl)

/-! ## When the code is right -/

/-- **The code evaluates the expression as it should**: it always comes to a value or to a failure, and a value is the
exact one. -/
structure Defined (w : View) (e : Expr) : Prop where
  total : evalWith cpp w e ≠ .error .undefined
  exact : ∀ v, evalWith cpp w e = .ok v → evalWith exact w e = .ok v

section

variable {w : View} {e : Expr}

/-- The code evaluates an expression as it should if and only if it is safe. -/
theorem defined_iff : Defined w e ↔ Safe w e := by
  rcases (cpp_tracks w).eval e with ⟨hs, hcpp⟩ | ⟨hs, hcpp⟩
  · refine iff_of_true ⟨?_, fun v hv => ?_⟩ hs
    · rw [hcpp]
      cases eval w e <;> nofun
    · rw [(exact_tracks w).eval e hs]
      rw [hcpp] at hv
      cases heval : eval w e <;> rw [heval] at hv <;> cases hv
      rfl
  · exact iff_of_false (fun h => h.total hcpp) hs

end

/-- Two fields, `a` and `b`. -/
def View.twoFields (a b : Int64) : View where
  input := []
  pos := 0
  effectiveEnd := 0
  env := [⟨some "a", some (.int a), 0, 0, .int64LE⟩, ⟨some "b", some (.int b), 0, 0, .int64LE⟩]
  scopes := []
  counter := none

/-- `a / b` of the least integer and -1. -/
theorem division_undefined :
    ¬ Defined (.twoFields Int64.minValue (-1)) (.binOp (.ref (.simple "a" none)) .div (.ref (.simple "b" none))) := by
  intro h
  exact h.total rfl

end Bbq.Cek
