import Bbq.Bytecode.Emit
import Bbq.Lib.Flow

/-!
# Bytecode, item by item

What the bytes of an emitter are before its targets are written: instructions, branches among them, with the keys that
stand before them (`Layout`). As a program it is a graph (`Layout.graph`) over the numbers of its items.

The peephole passes make four changes, none of which is seen:
* `same_retarget`: a branch goes where the jumps at its target lead.
* `same_merge`: a jump to an instruction that leaves is that instruction.
* `same_elide`: a jump to what is behind it is left out.
* `same_reverse`: a conditional branch over a jump takes the jump's target, the other way round, and the jump is left
  out. No branch may target the jump. A label that stands before it then stands before what is behind it.
-/

namespace Bbq.Bytecode

open Bbq.Lib.Flow

/-- An opcode and the bytes of its operands, a branch's target not among them. -/
abbrev Instr := UInt8 × List UInt8

/-- What a reader of the code knows of the opcodes. -/
structure Isa where
  /-- A target comes first. -/
  branch : UInt8 → Bool
  /-- The operands a string starts with. -/
  operands : UInt8 → List UInt8 → Option (List UInt8)
  operands_append : ∀ o args, operands o args = some args → ∀ rest, operands o (args ++ rest) = some args

theorem Isa.operands_unique (isa : Isa) {o : UInt8} {args : List UInt8} (h : isa.operands o [] = some [])
    (hargs : isa.operands o args = some args) : args = [] := by
  have := isa.operands_append o [] h args
  rw [List.nil_append, hargs] at this
  exact Option.some.inj this

inductive Item (κ : Type)
  | plain (o : UInt8) (args : List UInt8)
  | branch (o : UInt8) (key : κ) (args : List UInt8)

structure Layout (κ : Type) where
  items : List (Item κ)
  /-- The item a key stands before. -/
  place : κ → Option Nat

variable {κ σ ω : Type}

def Item.opcode : Item κ → UInt8
  | plain o _ | branch o _ _ => o

/-- The operands are those that a reader of the code finds. -/
def Item.Shaped (isa : Isa) : Item κ → Prop
  | plain o args => isa.branch o = false ∧ isa.operands o args = some args
  | branch o _ args => isa.branch o = true ∧ isa.operands o args = some args

def Item.point (place : κ → Option Nat) (i : Nat) : Item κ → Option (Point Instr Nat)
  | plain o args => some ⟨(o, args), none, i + 1⟩
  | branch o key args => (place key).map fun t => ⟨(o, args), some t, i + 1⟩

/-- The number of an item after item `i` is removed. For `i` itself it is that of what was behind it. -/
def without (i j : Nat) : Nat := if i < j then j - 1 else j

namespace Layout

def graph (l : Layout κ) : FlowGraph Instr Nat := fun i => l.items[i]?.bind fun item => item.point l.place i

def set (l : Layout κ) (i : Nat) (item : Item κ) : Layout κ := { l with items := l.items.set i item }

def erase (l : Layout κ) (i : Nat) : Layout κ where
  items := l.items.eraseIdx i
  place := fun key => (l.place key).map (without i)

structure Sound (isa : Isa) (l : Layout κ) : Prop where
  shaped : ∀ {i : Nat} {item : Item κ}, l.items[i]? = some item → item.Shaped isa
  /-- Every branch has a target. -/
  closed : ∀ {i : Nat} {o key args}, l.items[i]? = some (Item.branch o key args) → (l.place key).isSome

variable {isa : Isa} {l : Layout κ} {i j : Nat} {item : Item κ} {o : UInt8} {key : κ} {args : List UInt8}

theorem items_set (h : l.items[i]? = some item) (item' : Item κ) (j : Nat) :
    (l.set i item').items[j]? = if j = i then some item' else l.items[j]? := by
  obtain ⟨hlt, -⟩ := List.getElem?_eq_some_iff.mp h
  unfold set
  by_cases hj : j = i
  · subst hj
    rw [if_pos rfl, List.getElem?_set_self hlt]
  · rw [if_neg hj, List.getElem?_set_ne (Ne.symm hj)]

theorem items_erase (l : Layout κ) (h : j ≠ i) : (l.erase i).items[without i j]? = l.items[j]? := by
  unfold erase without
  dsimp only
  by_cases hlt : i < j
  · rw [if_pos hlt, List.getElem?_eraseIdx, if_neg (by omega), Nat.sub_add_cancel (by omega)]
  · rw [if_neg hlt, List.getElem?_eraseIdx, if_pos (by omega)]

theorem without_surjective (i y : Nat) : ∃ j, j ≠ i ∧ without i j = y := by
  unfold without
  by_cases hy : y < i
  · exact ⟨y, by omega, by rw [if_neg (by omega)]⟩
  · exact ⟨y + 1, by omega, by rw [if_pos (by omega)]; omega⟩

theorem without_inj {j' : Nat} (h : j ≠ i) (h' : j' ≠ i) : without i j = without i j' ↔ j = j' := by
  unfold without
  by_cases hj : i < j <;> by_cases hj' : i < j' <;> simp only [hj, hj', if_pos, if_false] <;> omega

/-! ## As a graph -/

theorem graph_set (h : l.items[i]? = some item) (item' : Item κ) :
    (l.set i item').graph = Function.update l.graph i (item'.point l.place i) := by
  funext x
  unfold graph
  rw [items_set h]
  by_cases hx : x = i
  · subst hx
    rw [if_pos rfl, Function.update_self]
    rfl
  · rw [if_neg hx, Function.update_of_ne hx]
    rfl

theorem graph_erase (l : Layout κ) (h : j ≠ i) :
    (l.erase i).graph (without i j) = (l.graph j).map (Point.map (without i)) := by
  have hnext : without i j + 1 = without i (j + 1) := by
    unfold without
    by_cases hlt : i < j
    · rw [if_pos hlt, if_pos (by omega)]
      omega
    · rw [if_neg hlt, if_neg (by omega)]
  unfold graph
  rw [items_erase l h]
  cases l.items[j]? with
  | none => rfl
  | some item =>
    cases item with
    | plain o args =>
      change some _ = some _
      rw [hnext]
      rfl
    | branch o key args =>
      change ((l.place key).map (without i)).map _ = ((l.place key).map _).map _
      rw [Option.map_map, Option.map_map, hnext]
      rfl

theorem graph_branch (h : l.items[i]? = some (.branch o key args)) {t : Nat} (ht : l.place key = some t) :
    l.graph i = some ⟨(o, args), some t, i + 1⟩ := by
  unfold graph
  rw [h, Option.bind_some, Item.point, ht, Option.map_some]

theorem graph_plain (h : l.items[i]? = some (.plain o args)) : l.graph i = some ⟨(o, args), none, i + 1⟩ := by
  unfold graph
  rw [h]
  rfl

/-- A point of the graph is an item. -/
theorem of_graph {p : Point Instr Nat} (h : l.graph i = some p) :
    (l.items[i]? = some (.plain p.instr.1 p.instr.2) ∧ p.target = none ∧ p.next = i + 1) ∨
      ∃ key t, l.items[i]? = some (.branch p.instr.1 key p.instr.2) ∧ l.place key = some t ∧ p.target = some t ∧
        p.next = i + 1 := by
  unfold graph at h
  obtain ⟨item, hitem, hpoint⟩ := Option.bind_eq_some_iff.mp h
  cases item with
  | plain o args =>
    cases hpoint
    exact .inl ⟨hitem, rfl, rfl⟩
  | branch o key args =>
    obtain ⟨t, ht, rfl⟩ := Option.map_eq_some_iff.mp hpoint
    exact .inr ⟨key, t, hitem, ht, rfl, rfl⟩

/-! ## The changes -/

section

variable {m : Machine Instr σ ω}

/-- Silent jumps are branches. -/
def Jumps (m : Machine Instr σ ω) (l : Layout κ) : Prop :=
  ∀ (i : Nat) o args, l.items[i]? = some (Item.plain o args) → m.silent (o, args) = false

theorem Jumps.targets (h : l.Jumps m) (x : Nat) (p : Point Instr Nat) (hp : l.graph x = some p)
    (hs : m.silent p.instr = true) : p.target.isSome := by
  obtain ⟨hitem, -, -⟩ | ⟨key, t, -, -, ht, -⟩ := of_graph hp
  · rw [h x _ _ hitem] at hs
    cases hs
  · rw [ht]
    rfl

variable {t : Nat} (hl : l.Jumps m)

include hl

theorem same_retarget (hi : l.items[i]? = some (.branch o key args)) (ht : l.place key = some t) {key' : κ} {t' : Nat}
    (ht' : l.place key' = some t') (hslides : Slides m l.graph t t') (x : Nat) :
    Same m l.graph x (l.set i (.branch o key' args)).graph x := by
  have hq := graph_branch hi ht
  have hmatch : Matches m (Slides m l.graph) ⟨(o, args), some t, i + 1⟩ ⟨(o, args), some t', i + 1⟩ :=
    .same rfl (.some hslides) .refl
  have hsame : Same m l.graph x (Function.update l.graph i (some ⟨(o, args), some t', i + 1⟩)) x :=
    same_of_update ⟨(o, args), some t', i + 1⟩ hl.targets hq rfl hmatch (fun _ => ⟨t, t', rfl, rfl, hslides⟩) x
  rw [graph_set hi, Item.point, ht', Option.map_some]
  exact hsame

theorem same_merge (hi : l.items[i]? = some (.branch o key args)) (hs : m.silent (o, args) = true)
    (ht : l.place key = some t) {r : UInt8} (hr : l.items[t]? = some (.plain r []))
    (hleaving : ∀ s, Leaving (m.exec (r, []) s)) (x : Nat) :
    Same m l.graph x (l.set i (.plain r [])).graph x := by
  have hsame : Same m l.graph x (Function.update l.graph i (some ⟨(r, []), none, i + 1⟩)) x :=
    same_of_leaving ⟨(r, []), none, i + 1⟩ hl.targets (graph_branch hi ht) hs rfl (graph_plain hr) (hl t r [] hr) rfl hleaving x
  rw [graph_set hi]
  exact hsame

theorem same_elide (hi : l.items[i]? = some (.branch o key args)) (hs : m.silent (o, args) = true)
    (ht : l.place key = some (i + 1)) (x : Nat) : Same m l.graph x (l.erase i).graph (without i x) := by
  refine same_of_omit (without i) hl.targets (graph_branch hi ht) hs rfl (by omega) ?_
    (fun x hx => graph_erase l hx) x
  unfold without
  rw [if_pos (by omega), if_neg (by omega)]
  rfl

theorem same_reverse (hi : l.items[i]? = some (.branch o key args)) (hloud : m.silent (o, args) = false)
    (ht : l.place key = some (i + 2)) {g : UInt8} {key' : κ} {args' : List UInt8}
    (hi' : l.items[i + 1]? = some (.branch g key' args')) (hs : m.silent (g, args') = true)
    (ht' : l.place key' = some t) {o' : UInt8} (hloud' : m.silent (o', args) = false)
    (hexec : ∀ s, Opposite (m.exec (o, args) s) (m.exec (o', args) s))
    (hfree : ∀ (j : Nat) r k as, l.items[j]? = some (Item.branch r k as) → l.place k ≠ some (i + 1)) {x : Nat} (hx : x ≠ i + 1) :
    Same m l.graph x ((l.set i (.branch o' key' args)).erase (i + 1)).graph (without (i + 1) x) := by
  have hq := graph_branch hi ht
  have hg := graph_branch hi' ht'
  -- first the branch changes, then nothing leads to the jump
  have hslides : Slides m l.graph (i + 1) t := .jump hg hs rfl
  have hmatch : Matches m (Slides m l.graph) ⟨(o, args), some (i + 2), i + 1⟩ ⟨(o', args), some t, i + 2⟩ :=
    .opposite (i + 2) t hexec rfl rfl hslides .refl
  have hchange : Same m l.graph x (Function.update l.graph i (some ⟨(o', args), some t, i + 2⟩)) x := by
    refine same_of_update _ hl.targets hq (hloud'.trans hloud.symm) hmatch (fun h => ?_) x
    rw [hloud] at h
    cases h
  have htarget : t ≠ i + 1 := fun h => hfree _ _ _ _ hi' (h ▸ ht')
  refine hchange.trans (same_of_map (fun y => y ≠ i + 1) (without (i + 1)) (fun y hy => ?_) (fun y p hp hps => ?_)
    (fun y p hy hp => ?_) hx)
  · rw [graph_erase _ hy, graph_set hi, Item.point, ht', Option.map_some]
    by_cases hyi : y = i
    · subst hyi
      rw [Function.update_self, Function.update_self, Option.map_some, Option.map_some]
      have hnext : without (y + 1) (y + 1) = without (y + 1) (y + 2) := by
        unfold without
        rw [if_neg (by omega), if_pos (by omega)]
        rfl
      unfold Point.map
      dsimp only
      rw [hnext]
    · rw [Function.update_of_ne hyi, Function.update_of_ne hyi]
  · by_cases hyi : y = i
    · subst hyi
      rw [Function.update_self] at hp
      obtain rfl := Option.some.inj hp
      rfl
    · rw [Function.update_of_ne hyi] at hp
      exact hl.targets y p hp hps
  · by_cases hyi : y = i
    · subst hyi
      rw [Function.update_self] at hp
      obtain rfl := Option.some.inj hp
      refine ⟨by dsimp only; omega, fun t' ht' => ?_⟩
      obtain rfl := Option.some.inj ht'
      exact htarget
    · rw [Function.update_of_ne hyi] at hp
      obtain ⟨-, hnone, hnext⟩ | ⟨k, t', hitem, hk, htgt, hnext⟩ := of_graph hp
      · refine ⟨by omega, fun t' ht' => ?_⟩
        rw [hnone] at ht'
        cases ht'
      · refine ⟨by omega, fun t'' ht'' => ?_⟩
        rw [htgt] at ht''
        obtain rfl := Option.some.inj ht''
        exact fun h => hfree _ _ _ _ hitem (h ▸ hk)

end

end Layout

end Bbq.Bytecode
