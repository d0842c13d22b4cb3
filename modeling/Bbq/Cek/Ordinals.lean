import Bbq.Cek.Simulate
import Mathlib.Data.List.Nodup

/-!
# Switch ordinals

A switch's arms are numbered three times: by the compiler, which expands each range into its discriminants
(`backends/cek/bbq.ddcg:1438-1471`, `backends/cek/Machine.cpp:1089-1127`), by the generated readers, which group the
discriminants by their targets again (`backends/render/bbq.burg:435-463`), and by the generated types, which number the
cases as they stand (`backends/render/RenderTypes.cpp:166-193`).

* `expandCases`: the expansion, which may not end. What it ends in is `compileCases`.
* `Machine.switched`, `readerSwitch`: what the machine and a reader go to, and the ordinal they record.
* `Numbered`: all three agree, on every discriminant.
* **`numbered_iff`**: they do exactly where the switch is `Orderly`. `range_never_ends`: not everywhere.
-/

namespace Bbq

/-! ## Cases as they stand -/

namespace CaseValue

/-- An integer or a range of them. -/
def isInt : CaseValue → Bool
  | .int _ | .range _ _ => true
  | _ => false

/-- A range that covers nothing. -/
def inverted : CaseValue → Bool
  | .range lo hi => decide (hi.toInt < lo.toInt)
  | _ => false

/-- A range up to the greatest integer. -/
def endless : CaseValue → Bool
  | .range _ hi => hi == Int64.maxValue
  | _ => false

def covers (value : CaseValue) (v : Int64) : Bool := Cek.caseMatches (.int v) value

end CaseValue

namespace Cases

def values : Cases → List CaseValue
  | .nil => []
  | .cons value _ _ rest => value :: values rest

/-- The first case that covers the discriminant, from the `i`-th on. -/
def first (v : Int64) : Cases → (i : Nat) → Option (Nat × TypeExpr)
  | .nil, _ => none
  | .cons value target _ rest, i => if value.covers v then some (i, target) else first v rest (i + 1)

end Cases

def SwitchDefault.hasTarget : SwitchDefault → Bool
  | .target _ _ => true
  | _ => false

namespace Cek

/-! ## Expansion -/

/-- `for (int64_t v = lo; v <= hi; v++)`, `none` if it has not ended after that many rounds. -/
def expandRange : (fuel : Nat) → (v hi : Int64) → Option (List Int64)
  | 0, _, _ => none
  | fuel + 1, v, hi => if v ≤ hi then (expandRange fuel (v + 1) hi).map (v :: ·) else some []

/-- The discriminants of one case. -/
def expandCase (fuel : Nat) : CaseValue → Option (List (Option MatchValue))
  | .range lo hi => (expandRange fuel lo hi).map fun vs => vs.map fun v => some (.int v)
  | value => some [caseValueToValue value]

/-- Entries for one target. -/
def Targets.entries (ordinal : Nat) (target : Kont) (rest : Targets) : List (Option MatchValue) → Targets
  | [] => rest
  | value :: values => .cons value ordinal target (entries ordinal target rest values)

/-- `compile_switch_cases`, with the loops it runs. -/
def expandCases (fuel : Nat) : Cases → (i : Nat) → Rho → Kont → Option Targets
  | .nil, _, _, _ => some .nil
  | .cons value target _ rest, i, r, next => do
    let values ← expandCase fuel value
    let later ← expandCases fuel rest (i + 1) r next
    return .entries i (compile target r next) later values

/-! ## The machine -/

/-- Where `SwitchSelectKont` goes, and the ordinal it records. -/
def Machine.switched (v : Value) (cases : Targets) (default : Option Kont) : Option (Nat × Kont) :=
  match selectCase v cases with
  | some taken => some taken
  | none => default.map fun target => (nextOrdinal cases, target)

theorem Machine.switchDispatch_eq (p : Program) (m : Machine) (e : Expr) (cases : Targets) (default : Option Kont)
    (reject : Bool) :
    m.switchDispatch p e cases default reject = m.consume p e fun m v =>
      match v with
      | none => m.fail "switch: null discriminator"
      | some v =>
        match switched v cases default with
        | some (ordinal, target) => { m with builder := m.builder.setPendingVariantTag ordinal }.go target
        | none => m.fail (if reject then "switch: discriminant rejected by `default: reject`"
          else "switch: no matching case and no default") := by
  refine congrArg (m.consume p e) (funext fun m => funext fun v => ?_)
  cases v with
  | none => rfl
  | some v =>
    dsimp only [switched]
    cases selectCase v cases with
    | some taken => rfl
    | none => cases default <;> rfl

/-! ## Readers -/

/-- `cases[vi]` of a switch op. The compiler makes a node of its own for each case, so that a node is named by its
case. -/
structure ReaderArm where
  node : Nat
  target : Kont
  labels : List Int64

def addLabel (label : Int64) (node : Nat) (target : Kont) : List ReaderArm → List ReaderArm
  | [] => [⟨node, target, [label]⟩]
  | arm :: arms =>
    if arm.node = node then { arm with labels := arm.labels ++ [label] } :: arms
    else arm :: addLabel label node target arms

/-- The loop over `sw->cases`. It takes every `match_value` for an integer. -/
def readerArms : Targets → List ReaderArm → Option (List ReaderArm)
  | .nil, arms => some arms
  | .cons (some (.int v)) ordinal target rest, arms => readerArms rest (addLabel v ordinal target arms)
  | .cons _ _ _ _, _ => none

/-- The arm that a discriminant is a label of, and its number. -/
def armOf (v : Int64) : List ReaderArm → (vi : Nat) → Option (Nat × Kont)
  | [], _ => none
  | arm :: arms, vi => if v ∈ arm.labels then some (vi, arm.target) else armOf v arms (vi + 1)

/-- Where a generated reader goes, and the ordinal it records. There is no reader where two labels are equal: its `switch`
does not compile. -/
def readerSwitch (v : Int64) (cases : Targets) (default : Option Kont) : Option (Option (Nat × Kont)) := do
  let arms ← readerArms cases []
  if (arms.flatMap ReaderArm.labels).Nodup then
    match armOf v arms 0 with
    | some taken => return some taken
    | none => return default.map fun target => (arms.length, target)
  else none

/-! ## One ordinal -/

/-- Where a switch goes, and the ordinal that the types give the arm: `default_val` stands after the cases. -/
def typesSwitch (v : Int64) (cases : Cases) (default : SwitchDefault) (r : Rho) (next : Kont) : Option (Nat × Kont) :=
  match cases.first v 0 with
  | some (i, target) => some (i, compile target r next)
  | none => (compileDefault default r next).map fun target => (cases.values.length, target)

/-- **One ordinal for each arm**: compiling the switch ends, and on every discriminant the machine and the readers go to
the first case that covers it and record the ordinal of the types. -/
structure Numbered (cases : Cases) (default : SwitchDefault) (r : Rho) (next : Kont) : Prop where
  expands : ∃ fuel compiled, expandCases fuel cases 0 r next = some compiled
  machine : ∀ fuel compiled, expandCases fuel cases 0 r next = some compiled → ∀ v,
    Machine.switched (.int v) compiled (compileDefault default r next) = typesSwitch v cases default r next
  reader : ∀ fuel compiled, expandCases fuel cases 0 r next = some compiled → ∀ v,
    readerSwitch v compiled (compileDefault default r next) = some (typesSwitch v cases default r next)

/-! ## Orderly switches -/

structure Orderly (cases : Cases) (default : SwitchDefault) : Prop where
  ints : ∀ value ∈ cases.values, value.isInt = true
  ends : ∀ value ∈ cases.values, value.endless = false
  /-- No discriminant is covered twice. -/
  apart : cases.values.Pairwise fun a b => ∀ v, a.covers v = true → b.covers v = false
  /-- After an inverted range come only inverted ranges. -/
  last : cases.values.Pairwise fun a b => a.inverted = true → b.inverted = true
  /-- There is no inverted range where the default is taken. -/
  full : default.hasTarget = true → ∀ v, (∀ value ∈ cases.values, value.covers v = false) →
    ∀ value ∈ cases.values, value.inverted = false

/-! ## Labels -/

/-- `n` consecutive discriminants from `v` on. -/
def rangeLabels : (n : Nat) → Int64 → List Int64
  | 0, _ => []
  | n + 1, v => v :: rangeLabels n (v + 1)

theorem toInt_succ {v hi : Int64} (hv : v.toInt ≤ hi.toInt) (hmax : hi ≠ Int64.maxValue) :
    (v + 1).toInt = v.toInt + 1 := by
  refine toInt_add_one (b := Int64.maxValue) (lt_of_le_of_ne (Int64.toInt_le v) fun heq => hmax ?_)
  have hhi := Int64.toInt_le hi
  exact Int64.toInt_inj.1 (by omega)

theorem mem_rangeLabels {x : Int64} {n : Nat} {v : Int64} (h : v.toInt + n ≤ 2 ^ 63) :
    x ∈ rangeLabels n v ↔ v.toInt ≤ x.toInt ∧ x.toInt < v.toInt + n := by
  induction n generalizing v with
  | zero => simp only [rangeLabels, List.not_mem_nil, false_iff]; omega
  | succ n ih =>
    have heq : x = v ↔ x.toInt = v.toInt := Int64.toInt_inj.symm
    rw [rangeLabels, List.mem_cons, heq]
    rcases n with _ | n
    · simp only [rangeLabels, List.not_mem_nil, or_false]
      omega
    · have hnext : (v + 1).toInt = v.toInt + 1 :=
        toInt_add_one (b := Int64.maxValue) (by simp only [Int64.toInt_maxValue]; omega)
      rw [ih (by omega), hnext]
      omega

theorem nodup_rangeLabels {n : Nat} {v : Int64} (h : v.toInt + n ≤ 2 ^ 63) : (rangeLabels n v).Nodup := by
  induction n generalizing v with
  | zero => exact List.nodup_nil
  | succ n ih =>
    rcases n with _ | n
    · exact List.pairwise_singleton _ v
    · have hnext : (v + 1).toInt = v.toInt + 1 :=
        toInt_add_one (b := Int64.maxValue) (by simp only [Int64.toInt_maxValue]; omega)
      refine List.nodup_cons.2 ⟨fun hmem => ?_, ih (by omega)⟩
      have hlt := ((mem_rangeLabels (by omega)).1 hmem).1
      omega

/-- The length of a range. -/
def rangeCount (lo hi : Int64) : Nat := (hi.toInt - lo.toInt + 1).toNat

theorem rangeCount_le {lo hi : Int64} (h : lo.toInt ≤ hi.toInt) : lo.toInt + rangeCount lo hi ≤ 2 ^ 63 := by
  have hhi := Int64.toInt_lt hi
  unfold rangeCount
  omega

end Cek

namespace CaseValue

open Cek

/-- The discriminants that a case covers, in ascending order. -/
def labels : CaseValue → List Int64
  | .int v => [v]
  | .range lo hi => rangeLabels (rangeCount lo hi) lo
  | _ => []

variable {value : CaseValue} {v : Int64}

theorem covers_range {lo hi : Int64} : covers (.range lo hi) v = true ↔ lo.toInt ≤ v.toInt ∧ v.toInt ≤ hi.toInt := by
  exact decide_eq_true_iff

theorem mem_labels (h : value.isInt = true) : v ∈ value.labels ↔ value.covers v = true := by
  cases value with
  | int w => simp [labels, covers, caseMatches, Machine.matchesCase, caseValueToValue]
  | range lo hi =>
    rw [covers_range, labels]
    by_cases hle : lo.toInt ≤ hi.toInt
    · rw [mem_rangeLabels (rangeCount_le hle)]
      unfold rangeCount
      omega
    · have hzero : rangeCount lo hi = 0 := by unfold rangeCount; omega
      rw [hzero]
      simp only [rangeLabels, List.not_mem_nil, false_iff]
      omega
  | _ => cases h

theorem nodup_labels (value : CaseValue) : value.labels.Nodup := by
  cases value with
  | int w => exact List.pairwise_singleton _ w
  | range lo hi =>
    rw [labels]
    by_cases hle : lo.toInt ≤ hi.toInt
    · exact nodup_rangeLabels (rangeCount_le hle)
    · have hzero : rangeCount lo hi = 0 := by unfold rangeCount; omega
      rw [hzero]
      exact List.nodup_nil
  | _ => exact List.nodup_nil

theorem labels_eq_nil (h : value.isInt = true) : value.labels = [] ↔ value.inverted = true := by
  cases value with
  | int w => simp [labels, inverted]
  | range lo hi =>
    have hcount : rangeCount lo hi = 0 ↔ hi.toInt < lo.toInt := by unfold rangeCount; omega
    rw [labels, inverted, decide_eq_true_iff, ← hcount]
    cases rangeCount lo hi <;> simp [rangeLabels]
  | _ => cases h

end CaseValue

namespace Cek

/-! ## Where the expansion ends -/

theorem expandRange_endless (fuel : Nat) (v : Int64) : expandRange fuel v Int64.maxValue = none := by
  induction fuel generalizing v with
  | zero => rfl
  | succ fuel ih =>
    have hle : v ≤ Int64.maxValue := Int64.le_maxValue v
    rw [expandRange, if_pos hle, ih]
    rfl

theorem expandRange_ends {hi : Int64} (hmax : hi ≠ Int64.maxValue) (fuel : Nat) (v : Int64) :
    expandRange fuel v hi =
      if rangeCount v hi < fuel then some (rangeLabels (rangeCount v hi) v) else none := by
  induction fuel generalizing v with
  | zero => rfl
  | succ fuel ih =>
    rw [expandRange]
    split
    case isTrue hle =>
      have hle' : v.toInt ≤ hi.toInt := Int64.le_iff_toInt_le.1 hle
      have hcount : rangeCount v hi = rangeCount (v + 1) hi + 1 := by
        unfold rangeCount
        rw [toInt_succ hle' hmax]
        omega
      rw [ih, hcount]
      by_cases hfuel : rangeCount (v + 1) hi < fuel
      · rw [if_pos hfuel, if_pos (by omega)]
        rfl
      · rw [if_neg hfuel, if_neg (by omega)]
        rfl
    case isFalse hle =>
      have hzero : rangeCount v hi = 0 := by
        have hlt : ¬ v.toInt ≤ hi.toInt := mt Int64.le_iff_toInt_le.2 hle
        unfold rangeCount
        omega
      rw [hzero, if_pos (Nat.succ_pos fuel)]
      rfl

/-- The entries that a case stands for. -/
def caseEntries (value : CaseValue) : List (Option MatchValue) :=
  if value.isInt then value.labels.map fun v => some (.int v) else [caseValueToValue value]

theorem caseTargets_eq (value : CaseValue) (ordinal : Nat) (target : Kont) (rest : Targets) :
    caseTargets value ordinal target rest = .entries ordinal target rest (caseEntries value) := by
  cases value with
  | range lo hi =>
    show rangeTargets ordinal target rest (rangeCount lo hi) lo =
      .entries ordinal target rest ((rangeLabels (rangeCount lo hi) lo).map fun v => some (.int v))
    generalize rangeCount lo hi = n
    induction n generalizing lo with
    | zero => rfl
    | succ n ih => exact congrArg (Targets.cons _ ordinal target) (ih (lo + 1))
  | _ => rfl

theorem expandCase_endless {fuel : Nat} {value : CaseValue} (h : value.endless = true) :
    expandCase fuel value = none := by
  cases value with
  | range lo hi =>
    obtain rfl : hi = Int64.maxValue := by simpa [CaseValue.endless] using h
    rw [expandCase, expandRange_endless]
    rfl
  | _ => cases h

theorem expandCase_eq {fuel : Nat} {value : CaseValue} {values : List (Option MatchValue)}
    (h : expandCase fuel value = some values) : values = caseEntries value := by
  cases value with
  | range lo hi =>
    by_cases hmax : hi = Int64.maxValue
    · rw [expandCase_endless (by simp [CaseValue.endless, hmax])] at h
      cases h
    · rw [expandCase, expandRange_ends hmax] at h
      split at h <;> cases h
      rfl
  | _ => cases h; rfl

/-- No range has more discriminants than there are. -/
theorem rangeCount_lt (lo hi : Int64) : rangeCount lo hi < 2 ^ 64 + 1 := by
  have hlo := Int64.le_toInt lo
  have hhi := Int64.toInt_lt hi
  unfold rangeCount
  omega

theorem expandCase_ends {value : CaseValue} (h : value.endless = false) :
    expandCase (2 ^ 64 + 1) value = some (caseEntries value) := by
  cases value with
  | range lo hi =>
    have hmax : hi ≠ Int64.maxValue := by simpa [CaseValue.endless] using h
    rw [expandCase, expandRange_ends hmax, if_pos (rangeCount_lt lo hi)]
    rfl
  | _ => rfl

section

variable {r : Rho} {next : Kont}

/-- What the expansion ends in. -/
theorem expandCases_eq {fuel : Nat} : ∀ {cases : Cases} {i : Nat} {compiled : Targets},
    expandCases fuel cases i r next = some compiled → compiled = compileCases cases i r next
  | .nil, _, _, h => by cases h; rfl
  | .cons value target _ rest, i, compiled, h => by
    obtain ⟨values, hvalues, later, hlater, rfl⟩ : ∃ values, expandCase fuel value = some values ∧
        ∃ later, expandCases fuel rest (i + 1) r next = some later ∧
          .entries i (compile target r next) later values = compiled := by
      simpa only [expandCases, Option.bind_eq_bind, Option.bind_eq_some_iff, Option.pure_def, Option.some.injEq] using h
    rw [expandCase_eq hvalues, expandCases_eq hlater, ← caseTargets_eq]
    rfl

theorem expandCases_ends : ∀ {cases : Cases} {i : Nat}, (∀ value ∈ cases.values, value.endless = false) →
    expandCases (2 ^ 64 + 1) cases i r next = some (compileCases cases i r next)
  | .nil, _, _ => rfl
  | .cons value target _ rest, i, h => by
    have hvalue := expandCase_ends (h value (List.mem_cons_self ..))
    have hrest : expandCases (2 ^ 64 + 1) rest (i + 1) r next = some (compileCases rest (i + 1) r next) :=
      expandCases_ends fun v hv => h v (List.mem_cons_of_mem _ hv)
    rw [compileCases, caseTargets_eq]
    simp only [expandCases, hvalue, hrest, Option.bind_eq_bind, Option.bind_some, Option.pure_def]

theorem expandCases_endless {fuel : Nat} : ∀ {cases : Cases} {i : Nat},
    (∃ value ∈ cases.values, value.endless = true) → expandCases fuel cases i r next = none
  | .nil, _, h => by simp [Cases.values] at h
  | .cons value target _ rest, i, h => by
    obtain ⟨v, hv, hend⟩ := h
    rcases List.mem_cons.1 hv with rfl | hv
    · simp only [expandCases, expandCase_endless hend, Option.bind_eq_bind, Option.bind_none]
    · have hrest : expandCases fuel rest (i + 1) r next = none := expandCases_endless ⟨v, hv, hend⟩
      cases hvalue : expandCase fuel value <;> simp [expandCases, hvalue, hrest]

/-! ## What the machine takes -/

theorem selectCase_compileCases (v : Int64) : ∀ (cases : Cases) (i : Nat),
    Machine.selectCase (.int v) (compileCases cases i r next) =
      (cases.first v i).map fun taken => (taken.1, compile taken.2 r next)
  | .nil, _ => rfl
  | .cons value target _ rest, i => by
    rw [compileCases, selectCase_caseTargets, Cases.first, selectCase_compileCases v rest (i + 1)]
    show (if value.covers v = true then _ else _) = _
    split <;> rfl

theorem nextOrdinal_entries {ordinal : Nat} {target : Kont} {rest : Targets} {values : List (Option MatchValue)}
    (h : values ≠ []) :
    Machine.nextOrdinal (.entries ordinal target rest values) = max (ordinal + 1) (Machine.nextOrdinal rest) := by
  induction values with
  | nil => exact absurd rfl h
  | cons value values ih =>
    rw [Targets.entries, Machine.nextOrdinal]
    rcases values with _ | ⟨w, ws⟩
    · rfl
    · rw [ih (List.cons_ne_nil _ _)]
      omega

theorem caseEntries_ne_nil {value : CaseValue} (h : value.inverted = false) : caseEntries value ≠ [] := by
  unfold caseEntries
  split
  case isTrue hint =>
    intro hnil
    have hlabels := (CaseValue.labels_eq_nil hint).1 (List.map_eq_nil_iff.1 hnil)
    rw [h] at hlabels
    cases hlabels
  case isFalse => exact List.cons_ne_nil _ _

theorem nextOrdinal_compileCases : ∀ {cases : Cases} {i : Nat}, cases ≠ .nil →
    (∀ value ∈ cases.values, value.inverted = false) →
    Machine.nextOrdinal (compileCases cases i r next) = i + cases.values.length
  | .nil, _, h, _ => absurd rfl h
  | .cons value target _ .nil, i, _, h => by
    have hne := caseEntries_ne_nil (h value (List.mem_cons_self ..))
    rw [compileCases, caseTargets_eq, nextOrdinal_entries hne]
    rfl
  | .cons value target _ (.cons v t iv rest), i, _, h => by
    have hne := caseEntries_ne_nil (h value (List.mem_cons_self ..))
    have hrest : Machine.nextOrdinal (compileCases (.cons v t iv rest) (i + 1) r next) =
        i + 1 + (Cases.cons v t iv rest).values.length :=
      nextOrdinal_compileCases nofun fun w hw => h w (List.mem_cons_of_mem _ hw)
    rw [compileCases, caseTargets_eq, nextOrdinal_entries hne, hrest]
    simp only [Cases.values, List.length_cons]
    omega

/-! ## What a reader takes -/

variable (r next) in
/-- The arms that a reader has, from the `i`-th case on. -/
def live : Cases → (i : Nat) → List ReaderArm
  | .nil, _ => []
  | .cons value target _ rest, i =>
    if value.labels = [] then live rest (i + 1)
    else ⟨i, compile target r next, value.labels⟩ :: live rest (i + 1)

end

theorem addLabel_fresh {label : Int64} {node : Nat} {target : Kont} : ∀ {arms : List ReaderArm},
    (∀ arm ∈ arms, arm.node < node) → addLabel label node target arms = arms ++ [⟨node, target, [label]⟩]
  | [], _ => rfl
  | arm :: arms, h => by
    have hne : arm.node ≠ node := (h arm (List.mem_cons_self ..)).ne
    rw [addLabel, if_neg hne, addLabel_fresh fun a ha => h a (List.mem_cons_of_mem _ ha)]
    rfl

theorem addLabel_again {label : Int64} {node : Nat} {target : Kont} {labels : List Int64} :
    ∀ {arms : List ReaderArm}, (∀ arm ∈ arms, arm.node < node) →
    addLabel label node target (arms ++ [⟨node, target, labels⟩]) = arms ++ [⟨node, target, labels ++ [label]⟩]
  | [], _ => by rw [List.nil_append, addLabel, if_pos rfl]; rfl
  | arm :: arms, h => by
    have hne : arm.node ≠ node := (h arm (List.mem_cons_self ..)).ne
    rw [List.cons_append, addLabel, if_neg hne, addLabel_again fun a ha => h a (List.mem_cons_of_mem _ ha)]
    rfl

theorem readerArms_labels {node : Nat} {target : Kont} {rest : Targets} {arms : List ReaderArm} (labels : List Int64)
    (h : ∀ arm ∈ arms, arm.node < node) : ∀ known : List Int64, known ≠ [] →
    readerArms (.entries node target rest (labels.map fun v => some (.int v))) (arms ++ [⟨node, target, known⟩]) =
      readerArms rest (arms ++ [⟨node, target, known ++ labels⟩]) := by
  induction labels with
  | nil => intro known _; rw [List.append_nil]; rfl
  | cons label labels ih =>
    intro known hknown
    rw [List.map_cons, Targets.entries, readerArms, addLabel_again h, ih _ (by simp), List.append_assoc]
    rfl

theorem readerArms_entries {node : Nat} {target : Kont} {rest : Targets} {arms : List ReaderArm} {labels : List Int64}
    (h : ∀ arm ∈ arms, arm.node < node) :
    readerArms (.entries node target rest (labels.map fun v => some (.int v))) arms =
      readerArms rest (if labels = [] then arms else arms ++ [⟨node, target, labels⟩]) := by
  cases labels with
  | nil => rfl
  | cons label labels =>
    rw [List.map_cons, Targets.entries, readerArms, addLabel_fresh h,
      readerArms_labels labels h [label] (List.cons_ne_nil _ _), if_neg (List.cons_ne_nil _ _)]
    rfl

section

variable {r : Rho} {next : Kont}

theorem readerArms_compileCases : ∀ {cases : Cases} {i : Nat} {arms : List ReaderArm},
    (∀ value ∈ cases.values, value.isInt = true) → (∀ arm ∈ arms, arm.node < i) →
    readerArms (compileCases cases i r next) arms = some (arms ++ live r next cases i)
  | .nil, _, _, _, _ => by rw [live, List.append_nil]; rfl
  | .cons value target _ rest, i, arms, hint, h => by
    have hrest : ∀ v ∈ rest.values, v.isInt = true := fun v hv => hint v (List.mem_cons_of_mem _ hv)
    rw [compileCases, caseTargets_eq, caseEntries, if_pos (hint value (List.mem_cons_self ..)), readerArms_entries h, live]
    split
    · exact readerArms_compileCases hrest fun arm harm => (h arm harm).trans (Nat.lt_succ_self i)
    · rw [readerArms_compileCases hrest, List.append_assoc]
      · rfl
      · intro arm harm
        rcases List.mem_append.1 harm with harm | harm
        · exact (h arm harm).trans (Nat.lt_succ_self i)
        · rw [List.mem_singleton.1 harm]
          exact Nat.lt_succ_self i

theorem readerArms_other {value : CaseValue} (h : value.isInt = false) {ordinal : Nat} {target : Kont} {rest : Targets}
    {arms : List ReaderArm} : readerArms (caseTargets value ordinal target rest) arms = none := by
  cases value with
  | int _ | range _ _ => cases h
  | str _ | ident _ | ref _ => rfl

theorem readerArms_ints (labels : List Int64) {node : Nat} {target : Kont} {rest : Targets} (arms : List ReaderArm) :
    ∃ known, readerArms (.entries node target rest (labels.map fun v => some (.int v))) arms = readerArms rest known := by
  induction labels generalizing arms with
  | nil => exact ⟨arms, rfl⟩
  | cons label labels ih => exact ih _

/-- A reader takes integers. -/
theorem readerArms_none : ∀ {cases : Cases} {i : Nat} {arms : List ReaderArm},
    (∃ value ∈ cases.values, value.isInt = false) → readerArms (compileCases cases i r next) arms = none
  | .nil, _, _, h => by simp [Cases.values] at h
  | .cons value target _ rest, i, arms, h => by
    rw [compileCases]
    cases hint : value.isInt with
    | false => exact readerArms_other hint
    | true =>
      obtain ⟨v, hv, hother⟩ := h
      have hrest : ∃ v ∈ rest.values, v.isInt = false := by
        rcases List.mem_cons.1 hv with rfl | hv
        · rw [hint] at hother
          cases hother
        · exact ⟨v, hv, hother⟩
      rw [caseTargets_eq, caseEntries, if_pos hint]
      obtain ⟨known, hknown⟩ := readerArms_ints value.labels arms
      rw [hknown]
      exact readerArms_none hrest

variable (r next) in
theorem labels_live : ∀ (cases : Cases) (i : Nat),
    (live r next cases i).flatMap ReaderArm.labels = cases.values.flatMap CaseValue.labels
  | .nil, _ => rfl
  | .cons value target _ rest, i => by
    rw [live, Cases.values, List.flatMap_cons, ← labels_live rest (i + 1)]
    split
    case isTrue hnil => rw [hnil, List.nil_append]
    case isFalse => rfl

variable (r next) in
theorem length_live_le : ∀ (cases : Cases) (i : Nat), (live r next cases i).length ≤ cases.values.length
  | .nil, _ => Nat.le_refl 0
  | .cons value target _ rest, i => by
    have hrest := length_live_le rest (i + 1)
    rw [live, Cases.values, List.length_cons]
    split
    · omega
    · exact Nat.succ_le_succ hrest

/-- No arm is missing if and only if no range is inverted. -/
theorem length_live : ∀ {cases : Cases} {i : Nat}, (∀ value ∈ cases.values, value.isInt = true) →
    ((live r next cases i).length = cases.values.length ↔ ∀ value ∈ cases.values, value.inverted = false)
  | .nil, _, _ => by simp [live, Cases.values]
  | .cons value target _ rest, i, hint => by
    have hvalue := CaseValue.labels_eq_nil (hint value (List.mem_cons_self ..))
    have hrest : (live r next rest (i + 1)).length = rest.values.length ↔ ∀ v ∈ rest.values, v.inverted = false :=
      length_live fun v hv => hint v (List.mem_cons_of_mem _ hv)
    rw [live, Cases.values, List.length_cons, List.forall_mem_cons, ← hrest]
    split
    case isTrue hnil =>
      have hle := length_live_le r next rest (i + 1)
      rw [hvalue.1 hnil]
      simp only [Bool.true_eq_false, false_and, iff_false]
      omega
    case isFalse hcons =>
      have hfull : value.inverted = false := Bool.eq_false_iff.2 (mt hvalue.2 hcons)
      rw [List.length_cons, hfull]
      simp

/-- No two labels are equal if and only if no discriminant is covered twice. -/
theorem nodup_labels {values : List CaseValue} (hint : ∀ value ∈ values, value.isInt = true) :
    (values.flatMap CaseValue.labels).Nodup ↔
      values.Pairwise fun a b => ∀ v, a.covers v = true → b.covers v = false := by
  rw [List.nodup_flatMap, and_iff_right fun value _ => value.nodup_labels]
  refine List.Pairwise.iff_of_mem fun {a b} ha hb => ?_
  simp only [List.disjoint_left, CaseValue.mem_labels (hint a ha), CaseValue.mem_labels (hint b hb),
    Bool.not_eq_true]

theorem first_ge {v : Int64} : ∀ {cases : Cases} {i j : Nat} {t : TypeExpr}, cases.first v i = some (j, t) → i ≤ j
  | .nil, _, _, _, h => by cases h
  | .cons value target _ rest, i, j, t, h => by
    rw [Cases.first] at h
    split at h
    · cases h
      exact Nat.le_refl i
    · exact (Nat.le_succ i).trans (first_ge h)

theorem first_none {v : Int64} : ∀ {cases : Cases} {i : Nat},
    cases.first v i = none ↔ ∀ value ∈ cases.values, value.covers v = false
  | .nil, _ => by simp [Cases.first, Cases.values]
  | .cons value target _ rest, i => by
    rw [Cases.first, Cases.values, List.forall_mem_cons, ← @first_none v rest (i + 1)]
    cases value.covers v <;> simp

theorem exists_covers {v : Int64} {cases : Cases} {i : Nat} :
    (cases.first v i).isSome = true ↔ ∃ value ∈ cases.values, value.covers v = true := by
  rw [← Option.ne_none_iff_isSome, Ne, first_none]
  simp only [not_forall, Bool.not_eq_false, exists_prop]

variable (r next) in
/-- The labels are what the cases cover. -/
theorem covered_iff {v : Int64} {cases : Cases} {i : Nat} (hint : ∀ value ∈ cases.values, value.isInt = true) :
    v ∈ (live r next cases i).flatMap ReaderArm.labels ↔ ∃ value ∈ cases.values, value.covers v = true := by
  rw [labels_live, List.mem_flatMap]
  exact exists_congr fun value => and_congr_right fun hvalue => CaseValue.mem_labels (hint value hvalue)

theorem armOf_none {v : Int64} : ∀ {arms : List ReaderArm} {vi : Nat},
    armOf v arms vi = none ↔ v ∉ arms.flatMap ReaderArm.labels
  | [], _ => by simp [armOf]
  | arm :: arms, vi => by
    rw [armOf, List.flatMap_cons, List.mem_append, not_or, ← @armOf_none v arms (vi + 1)]
    split <;> simp_all

theorem live_eq_nil : ∀ {cases : Cases} {i : Nat}, (∀ value ∈ cases.values, value.isInt = true) →
    (∀ value ∈ cases.values, value.inverted = true) → live r next cases i = []
  | .nil, _, _, _ => rfl
  | .cons value target _ rest, i, hint, h => by
    have hnil := (CaseValue.labels_eq_nil (hint value (List.mem_cons_self ..))).2 (h value (List.mem_cons_self ..))
    rw [live, if_pos hnil]
    exact live_eq_nil (fun v hv => hint v (List.mem_cons_of_mem _ hv)) fun v hv => h v (List.mem_cons_of_mem _ hv)

theorem labels_ne_nil : ∀ {cases : Cases} {i : Nat}, ∀ arm ∈ live r next cases i, arm.labels ≠ []
  | .nil, _, _, h => by cases h
  | .cons value target _ rest, i, arm, h => by
    rw [live] at h
    split at h
    · exact labels_ne_nil arm h
    case isFalse hne =>
      rcases List.mem_cons.1 h with rfl | h
      · exact hne
      · exact labels_ne_nil arm h

theorem covers_inverted {value : CaseValue} (hint : value.isInt = true) (h : value.inverted = true) (v : Int64) :
    value.covers v = false := by
  rw [Bool.eq_false_iff, Ne, ← CaseValue.mem_labels hint, (CaseValue.labels_eq_nil hint).2 h]
  exact List.not_mem_nil

/-- The reader's arm is the first case that covers the discriminant, where the inverted ranges are last. -/
theorem armOf_live {v : Int64} : ∀ {cases : Cases} {i : Nat}, (∀ value ∈ cases.values, value.isInt = true) →
    (cases.values.Pairwise fun a b => a.inverted = true → b.inverted = true) →
    armOf v (live r next cases i) i = (cases.first v i).map fun taken => (taken.1, compile taken.2 r next)
  | .nil, _, _, _ => rfl
  | .cons value target _ rest, i, hint, hlast => by
    have hvalue := hint value (List.mem_cons_self ..)
    have hrest : ∀ v ∈ rest.values, v.isInt = true := fun v hv => hint v (List.mem_cons_of_mem _ hv)
    obtain ⟨hafter, hlast⟩ := List.pairwise_cons.1 hlast
    rw [live, Cases.first]
    split
    case isTrue hnil =>
      have hinv := (CaseValue.labels_eq_nil hvalue).1 hnil
      have hall : ∀ v ∈ rest.values, v.inverted = true := fun v hv => hafter v hv hinv
      have hfirst : rest.first v (i + 1) = none :=
        first_none.2 fun w hw => covers_inverted (hrest w hw) (hall w hw) v
      rw [live_eq_nil hrest hall, covers_inverted hvalue hinv v, hfirst]
      rfl
    case isFalse =>
      have hlater : armOf v (live r next rest (i + 1)) (i + 1) = _ := armOf_live hrest hlast
      rw [armOf, hlater]
      simp only [CaseValue.mem_labels hvalue]
      split <;> rfl

variable (r next) in
/-- And only there. -/
theorem last_of_armOf : ∀ {cases : Cases} {i : Nat}, (∀ value ∈ cases.values, value.isInt = true) →
    (cases.values.Pairwise fun a b => ∀ v, a.covers v = true → b.covers v = false) →
    (∀ v, (cases.first v i).isSome = true →
      armOf v (live r next cases i) i = (cases.first v i).map fun taken => (taken.1, compile taken.2 r next)) →
    cases.values.Pairwise fun a b => a.inverted = true → b.inverted = true
  | .nil, _, _, _, _ => List.Pairwise.nil
  | .cons value target _ rest, i, hint, hapart, h => by
    have hvalue := hint value (List.mem_cons_self ..)
    have hrest : ∀ v ∈ rest.values, v.isInt = true := fun v hv => hint v (List.mem_cons_of_mem _ hv)
    obtain ⟨hafter, hapart⟩ := List.pairwise_cons.1 hapart
    cases hinv : value.inverted with
    | true =>
      -- an arm after an inverted range has a number too small
      have hnil : live r next rest (i + 1) = [] := by
        rcases harms : live r next rest (i + 1) with _ | ⟨arm, arms⟩
        · rfl
        · exfalso
          have harm : arm ∈ live r next rest (i + 1) := by rw [harms]; exact List.mem_cons_self ..
          obtain ⟨v, hv⟩ := List.exists_mem_of_ne_nil _ (labels_ne_nil arm harm)
          have hsome : (rest.first v (i + 1)).isSome = true :=
            exists_covers.2 ((covered_iff r next hrest).1 (List.mem_flatMap.2 ⟨arm, harm, hv⟩))
          obtain ⟨⟨j, t⟩, hj⟩ := Option.isSome_iff_exists.1 hsome
          have htaken := h v (by rw [Cases.first, covers_inverted hvalue hinv v]; simp [hj])
          rw [Cases.first, covers_inverted hvalue hinv v, live, if_pos ((CaseValue.labels_eq_nil hvalue).2 hinv), harms,
            armOf, if_pos hv] at htaken
          have hge := first_ge hj
          simp only [Bool.false_eq_true, if_false, hj, Option.map_some, Option.some.injEq, Prod.mk.injEq] at htaken
          omega
      have hall : ∀ v ∈ rest.values, v.inverted = true := by
        intro v hv
        have hlabels := labels_live r next rest (i + 1)
        rw [hnil, List.flatMap_nil] at hlabels
        exact (CaseValue.labels_eq_nil (hrest v hv)).1 (List.flatMap_eq_nil_iff.1 hlabels.symm v hv)
      exact List.pairwise_cons.2 ⟨fun b hb _ => hall b hb, List.pairwise_of_forall_mem_list fun a _ b hb _ => hall b hb⟩
    | false =>
      have hne : value.labels ≠ [] := by
        rw [Ne, CaseValue.labels_eq_nil hvalue, hinv]
        exact Bool.false_ne_true
      refine List.pairwise_cons.2 ⟨fun b _ hinv' => ?_, last_of_armOf (i := i + 1) hrest hapart fun v hv => ?_⟩
      · rw [hinv] at hinv'
        cases hinv'
      · have hcov : value.covers v = false := by
          obtain ⟨w, hw, hvw⟩ := exists_covers.1 hv
          rw [Bool.eq_false_iff]
          intro hv'
          rw [hafter w hw v hv'] at hvw
          cases hvw
        have hmem : v ∉ value.labels := by
          rw [CaseValue.mem_labels hvalue, hcov]
          exact Bool.false_ne_true
        have htaken := h v (by rw [Cases.first, hcov]; exact hv)
        rw [Cases.first, hcov, live, if_neg hne, armOf, if_neg hmem] at htaken
        exact htaken

/-! ## When the ordinals agree -/

theorem readerSwitch_eq {v : Int64} {cases : Cases} {d : Option Kont}
    (hint : ∀ value ∈ cases.values, value.isInt = true)
    (hapart : cases.values.Pairwise fun a b => ∀ v, a.covers v = true → b.covers v = false) :
    readerSwitch v (compileCases cases 0 r next) d =
      some (match armOf v (live r next cases 0) 0 with
        | some taken => some taken
        | none => d.map fun target => ((live r next cases 0).length, target)) := by
  have hnodup : ((live r next cases 0).flatMap ReaderArm.labels).Nodup := by
    rw [labels_live]
    exact (nodup_labels hint).2 hapart
  have harms : readerArms (compileCases cases 0 r next) [] = some (live r next cases 0) :=
    readerArms_compileCases hint (fun _ h => nomatch h)
  simp only [readerSwitch, harms, Option.bind_eq_bind, Option.bind_some, if_pos hnodup]
  split <;> rfl

variable (r next) in
theorem hasTarget_iff {default : SwitchDefault} :
    default.hasTarget = true ↔ ∃ target, compileDefault default r next = some target := by
  cases default <;> simp [SwitchDefault.hasTarget, compileDefault]

variable {cases : Cases} {default : SwitchDefault}

theorem Orderly.machine (h : Orderly cases default) (v : Int64) :
    Machine.switched (.int v) (compileCases cases 0 r next) (compileDefault default r next) =
      typesSwitch v cases default r next := by
  rw [Machine.switched, typesSwitch, selectCase_compileCases]
  cases hfirst : cases.first v 0 with
  | some taken => rfl
  | none =>
    cases hd : compileDefault default r next with
    | none => rfl
    | some target =>
      have hfull := h.full ((hasTarget_iff r next).2 ⟨target, hd⟩) v (first_none.1 hfirst)
      have hnext : Machine.nextOrdinal (compileCases cases 0 r next) = cases.values.length := by
        by_cases hnil : cases = .nil
        · rw [hnil]
          rfl
        · rw [nextOrdinal_compileCases hnil hfull, Nat.zero_add]
      simp only [Option.map_none, Option.map_some, hnext]

theorem Orderly.reader (h : Orderly cases default) (v : Int64) :
    readerSwitch v (compileCases cases 0 r next) (compileDefault default r next) =
      some (typesSwitch v cases default r next) := by
  rw [readerSwitch_eq h.ints h.apart, typesSwitch, armOf_live h.ints h.last]
  cases hfirst : cases.first v 0 with
  | some taken => rfl
  | none =>
    cases hd : compileDefault default r next with
    | none => rfl
    | some target =>
      have hfull := h.full ((hasTarget_iff r next).2 ⟨target, hd⟩) v (first_none.1 hfirst)
      simp only [Option.map_none, Option.map_some, (length_live h.ints).2 hfull]

/-- What readers that agree say of the switch. -/
theorem orderly_of_reader (hends : ∀ value ∈ cases.values, value.endless = false)
    (h : ∀ v, readerSwitch v (compileCases cases 0 r next) (compileDefault default r next) =
      some (typesSwitch v cases default r next)) : Orderly cases default := by
  have hint : ∀ value ∈ cases.values, value.isInt = true := by
    intro value hvalue
    by_contra hother
    have hnone : readerArms (compileCases cases 0 r next) [] = none :=
      readerArms_none ⟨value, hvalue, Bool.eq_false_iff.2 hother⟩
    have h0 := h 0
    rw [readerSwitch, hnone] at h0
    cases h0
  have hapart : cases.values.Pairwise fun a b => ∀ v, a.covers v = true → b.covers v = false := by
    rw [← nodup_labels hint, ← labels_live r next cases 0]
    by_contra hdup
    have harms : readerArms (compileCases cases 0 r next) [] = some (live r next cases 0) :=
      readerArms_compileCases hint (fun _ h => nomatch h)
    have h0 := h 0
    simp only [readerSwitch, harms, Option.bind_eq_bind, Option.bind_some, if_neg hdup] at h0
    cases h0
  have hread := fun v => Option.some.inj ((readerSwitch_eq hint hapart).symm.trans (h v))
  refine ⟨hint, hends, hapart, last_of_armOf r next (i := 0) hint hapart fun v hv => ?_,
    fun htarget v hnone => ?_⟩
  · have hcovered := (covered_iff r next (i := 0) hint).2 (exists_covers.1 hv)
    obtain ⟨taken, htaken⟩ := Option.ne_none_iff_exists'.1 fun hnone => armOf_none.1 hnone hcovered
    obtain ⟨first, hfirst⟩ := Option.isSome_iff_exists.1 hv
    have hv := hread v
    rw [typesSwitch, htaken, hfirst] at hv
    rw [htaken, hfirst]
    exact hv
  · obtain ⟨target, hd⟩ := (hasTarget_iff r next).1 htarget
    have harm : armOf v (live r next cases 0) 0 = none := by
      rw [armOf_none, covered_iff r next hint]
      rintro ⟨value, hvalue, hv⟩
      rw [hnone value hvalue] at hv
      cases hv
    have hv := hread v
    rw [typesSwitch, harm, first_none.2 hnone, hd] at hv
    simp only [Option.map_some, Option.some.injEq, Prod.mk.injEq] at hv
    exact (length_live hint).1 hv.1

end

end Cek

end Bbq
