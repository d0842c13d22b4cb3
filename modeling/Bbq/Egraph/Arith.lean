import Bbq.Egraph.KnownConst
import Bbq.Egraph.Rules
import Bbq.Egraph.Saturate

/-!
# The language of known constants

What the operators of the tests of the e-graph stand for: values over all values of A and B. A fact says that a value is
that constant. So `kc_make`, `kc_join` and `kc_modify` are right (`arith_describes`), and so is a rule that asks for a
fact (`plusNothing_holds`).
-/

namespace Bbq.Egraph

/-- For each value of A and B. -/
abbrev Arith := Int → Int → Int

def arithMeaning (op data : Int) (vs : List Arith) : Arith :=
  if op = OP_CONST then fun _ _ => data
  else if op = OP_A then fun a _ => a
  else if op = OP_B then fun _ b => b
  else
    match vs with
    | [x, y] =>
      if op = OP_ADD then fun a b => x a b + y a b
      else if op = OP_MUL then fun a b => x a b * y a b
      else fun _ _ => 0
    | _ => fun _ _ => 0

def arith : Language Arith (Option Int) where
  meaning := arithMeaning
  holds d v := ∀ value, d = some value → v = fun _ _ => value
  helper _ _ := fun _ _ => 0

theorem arith_add (data : Int) (x y : Arith) : arithMeaning OP_ADD data [x, y] = fun a b => x a b + y a b := rfl

/-! ## The analysis -/

theorem kcJoin_holds {v : Arith} {d d' : Option Int} (h : arith.holds d v) (h' : arith.holds d' v) :
    arith.holds (kcJoin d d') v := by
  intro value hvalue
  cases d with
  | none =>
    cases d' with
    | none => cases hvalue
    | some b => exact h' value hvalue
  | some a =>
    cases d' with
    | none => exact h value hvalue
    | some b =>
      obtain rfl := Option.some.inj hvalue
      have hab : a = b := congrFun (congrFun ((h a rfl).symm.trans (h' b rfl)) 0) 0
      rw [h a rfl, hab, min_self]

/-- A constant has its value, and a sum of constants theirs. -/
theorem kcMake_holds {ν : Nat → Arith} {s : Analysed (Option Int)} (op data : Int) {kids : List Nat}
    (hkids : ∀ k ∈ kids, arith.holds (egClassData s k) (ν k)) :
    arith.holds (kcMake s op data kids) (arithMeaning op data (kids.map ν)) := by
  intro value hvalue
  unfold kcMake at hvalue
  by_cases hconst : op = OP_CONST
  · rw [if_pos hconst] at hvalue
    obtain rfl := Option.some.inj hvalue
    unfold arithMeaning
    rw [if_pos hconst]
  · rw [if_neg hconst] at hvalue
    rcases kids with _ | ⟨x, _ | ⟨y, _ | ⟨z, zs⟩⟩⟩
    · cases hvalue
    · cases hvalue
    · dsimp only at hvalue
      by_cases hadd : op = OP_ADD
      · rw [if_pos hadd] at hvalue
        have hx := hkids x List.mem_cons_self
        have hy := hkids y (List.mem_cons_of_mem _ List.mem_cons_self)
        generalize egClassData s x = dx at hx hvalue
        generalize egClassData s y = dy at hy hvalue
        cases dx with
        | none => cases hvalue
        | some a =>
          cases dy with
          | none => cases hvalue
          | some b =>
            obtain rfl := Option.some.inj hvalue
            rw [hadd, List.map_cons, List.map_cons, List.map_nil, arith_add, hx a rfl, hy b rfl]
      · rw [if_neg hadd] at hvalue
        cases hvalue
    · cases hvalue

theorem known_reads : arith.Reads known where
  join := kcJoin_holds
  make := by
    intro ν s op data kids _ hkids
    exact kcMake_holds op data fun k hk => (hkids k hk).2

theorem knownConst_reads : arith.Reads knownConst := ⟨known_reads.join, known_reads.make⟩

/-- Without auxiliaries. -/
def noHelp (_ : String) (_ : View (Option Int)) (_ : List (Option Nat)) : Option Nat := none

/-- **The analysis of known constants** says what is so. The constant that `kc_modify` adds has the value of the class
it is merged with. -/
theorem arith_describes : arith.Describes knownConst noHelp where
  toReads := knownConst_reads
  modify := by
    intro ν s c hs hc _
    have hfact := hs.facts c hc
    change ∃ ν', Advance arith knownConst ν s ν' (kcModify s c (factAt knownConst s c))
    generalize factAt knownConst s c = d at hfact ⊢
    cases d with
    | none => exact ⟨ν, .refl hs⟩
    | some value =>
      have hknown : Sense arith known ν s := ⟨hs.valued, hs.slots, hs.facts⟩
      obtain ⟨ν₁, id, hret, hadd, hhas, -⟩ := addNode_goes known_reads hknown OP_CONST value
        fun k (hk : k ∈ []) => absurd hk List.not_mem_nil
      unfold kcModify
      dsimp only
      generalize addNode known s OP_CONST value [] = r at hret hadd hhas ⊢
      obtain ⟨ret, s₁⟩ := r
      dsimp only at hret hadd hhas ⊢
      subst hret
      have hclass : Has ν₁ s₁ c (fun _ _ => value) :=
        ⟨lt_of_lt_of_le hc hadd.length, (hadd.kept c hc).trans (hfact value rfl)⟩
      have hall := hadd.trans (mergeFact_goes known_reads hadd.sense hclass hhas)
      exact ⟨ν₁, ⟨hall.sense.valued, hall.sense.slots, hall.sense.facts⟩, hall.length, hall.kept⟩
  helper := by
    intro ν s name ids id _ _ hid
    cases hid
  refuses := fun _ _ _ _ => rfl

/-! ## Rules -/

/-- What a guard asks for: the class that a variable holds is known to have the value. -/
def knownToBe (name : String) (value : Int) (v : View (Option Int)) (env : Env) : Bool :=
  (env name).elim false fun id => v.class_data.getD (v.root id) none == some value

/-- Add($x, $y) => $x, where $y is 0. -/
def plusNothing : RewriteRule (Option Int) where
  op := OP_ADD
  children := [.binder "x", .binder "y"]
  guard := fun v env _ => knownToBe "y" 0 v env
  tmpl := .binder "x"
  bound := by decide

variable {ν : Nat → Arith} {s : Analysed (Option Int)} {env : Env} {ρ : Values Arith} {vs : List Arith}

theorem knownToBe_value (hs : Sense arith knownConst ν s) (henv : Shown ν s env ρ) {name : String} {value : Int}
    (h : knownToBe name value (view s) env = true) : ρ name = some fun _ _ => value := by
  unfold knownToBe at h
  rw [henv.value]
  cases hid : env name with
  | none =>
    rw [hid] at h
    cases h
  | some id =>
    rw [hid, Option.elim_some, beq_iff_eq] at h
    have hlt := henv.valid name id hid
    have hroot := hs.valued.whole.stored.grove.root_lt hlt
    rw [Option.map_some, ← hs.valued.root hlt, hs.facts _ hroot value h]

theorem fits_two (h : arith.FitsAll [.binder "x", .binder "y"] vs (fun _ => none) ρ) :
    ∃ x y, vs = [x, y] ∧ ρ "x" = some x ∧ ρ "y" = some y := by
  rcases vs with _ | ⟨x, _ | ⟨y, _ | ⟨z, zs⟩⟩⟩
  · simp [Language.FitsAll] at h
  · simp [Language.FitsAll] at h
  · simp only [Language.FitsAll, Language.Fits] at h
    obtain ⟨ρ₁, rfl, ρ₂, rfl, rfl⟩ := h
    exact ⟨x, y, rfl, by simp, by simp⟩
  · simp [Language.FitsAll] at h

theorem plusNothing_holds : plusNothing.Holds arith knownConst := by
  intro ν s c env ρ data vs hs hc henv hvalue hfits hguard u hu
  obtain ⟨x, y, rfl, hx, hy⟩ := fits_two hfits
  have hzero := knownToBe_value hs henv hguard
  rw [hy] at hzero
  rw [← hvalue, Option.some.inj hzero]
  change ρ "x" = some u at hu
  rw [hx] at hu
  obtain rfl := Option.some.inj hu
  exact (funext fun a => funext fun b => Int.add_zero (x a b)).symm

theorem commute_holds : commute.Holds arith knownConst := by
  intro ν s c env ρ data vs hs hc henv hvalue hfits hguard u hu
  obtain ⟨x, y, rfl, hx, hy⟩ := fits_two hfits
  simp only [commute, Language.Instance, Language.InstanceAll] at hu
  obtain ⟨data', us, -, ⟨y', us', hy', ⟨x', us'', hx', rfl, rfl⟩, rfl⟩, rfl⟩ := hu
  rw [hx] at hx'
  rw [hy] at hy'
  obtain rfl := Option.some.inj hx'
  obtain rfl := Option.some.inj hy'
  rw [← hvalue]
  exact funext fun a => funext fun b => Int.add_comm (y a b) (x a b)

end Bbq.Egraph
