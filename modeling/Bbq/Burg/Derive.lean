import Bbq.Burg.Spec

/-!
# Covers of a tree

What a tiling grammar means, without a labeller: which trees a nonterminal derives and at what cost.

* `frontier p u` is what a pattern leaves to be derived when it is laid over the node `u`: its
  nonterminals at the nodes they come to lie on, and every child beyond the operands of the pattern,
  from the start nonterminal. `none`: the pattern does not fit. A terminal without operands that
  another rule gives operands fits nodes without children only (`pattern_guard`).
* `Cover` is a derivation as a tree, and `Cover.Valid` that each of its steps is one of the grammar,
  with its guard true.
-/

namespace Bbq.Burg

variable {α : Type}

/-- A tree, with what guards may look at besides its shape. -/
inductive Node (α : Type)
  | mk (op : String) (data : α) (children : List (Node α))

namespace Node

def op : Node α → String
  | .mk op _ _ => op

def children : Node α → List (Node α)
  | .mk _ _ children => children

end Node

/-- A node and the nonterminal to derive it from. -/
abbrev Goal (α : Type) := Node α × String

variable (G : Spec)

mutual

/-- What `p` leaves to be derived at `u`. -/
def frontier : TreePattern → Node α → Option (List (Goal α))
  | .mk name ps, u =>
    if ps.isEmpty ∧ ¬ G.isTerminal name then some [(u, name)]
    else if u.op ≠ name then none
    else if ps.isEmpty ∧ G.hasOperandRule name ∧ u.children ≠ [] then none
    else frontiers ps u.children

/-- The operands in order, then the children beyond them. -/
def frontiers : List TreePattern → List (Node α) → Option (List (Goal α))
  | [], us => some (us.map fun u => (u, G.startNonterm))
  | _ :: _, [] => none
  | p :: ps, u :: us => (frontier p u).bind fun goals => (frontiers ps us).map fun rest => goals ++ rest

end

/-- A derivation: the rule at the root, the node it is used at, and derivations of what it leaves. -/
inductive Cover (α : Type)
  | mk (rule : Rule) (node : Node α) (subs : List (Cover α))

namespace Cover

def rule : Cover α → Rule
  | .mk rule _ _ => rule

def node : Cover α → Node α
  | .mk _ node _ => node

def subs : Cover α → List (Cover α)
  | .mk _ _ subs => subs

/-- What is derived. -/
def goal (d : Cover α) : Goal α := (d.node, d.rule.nonterm)

mutual

def cost : Cover α → Nat
  | .mk rule _ subs => rule.cost + costs subs

def costs : List (Cover α) → Nat
  | [] => 0
  | d :: ds => d.cost + costs ds

end

mutual

/-- The rules in the order their actions run: those of the subderivations first. -/
def actions : Cover α → List (Rule × Node α)
  | .mk rule node subs => actionsAll subs ++ [(rule, node)]

def actionsAll : List (Cover α) → List (Rule × Node α)
  | [] => []
  | d :: ds => d.actions ++ actionsAll ds

end

variable (guard : Rule → Node α → Bool)

section Along

variable (walk : TreePattern → Node α → Option (List (Goal α)))

mutual

/-- Every step uses a rule of the grammar with its guard true, on derivations of what `walk` says. -/
def Along : Cover α → Prop
  | .mk rule node subs => rule ∈ G.rules ∧ guard rule node = true ∧
      walk rule.pattern node = some (subs.map goal) ∧ AlongAll subs

def AlongAll : List (Cover α) → Prop
  | [] => True
  | d :: ds => d.Along ∧ AlongAll ds

end

end Along

/-- Every step is one of the grammar. -/
def Valid (d : Cover α) : Prop := d.Along G guard (frontier G)

def ValidAll (ds : List (Cover α)) : Prop := AlongAll G guard (frontier G) ds

end Cover

/-- Some derivation of `nt` covers the tree at this cost. -/
def Derives (guard : Rule → Node α → Bool) (u : Node α) (nt : String) (c : Nat) : Prop :=
  ∃ d : Cover α, d.Valid G guard ∧ d.goal = (u, nt) ∧ d.cost = c

/-- Derivations of all of `goals`, with the sum of their costs. -/
def DerivesAll (guard : Rule → Node α → Bool) : List (Goal α) → Nat → Prop
  | [], c => c = 0
  | (u, nt) :: goals, c => ∃ c₁ c₂, Derives G guard u nt c₁ ∧ DerivesAll guard goals c₂ ∧ c = c₁ + c₂

variable {G} {guard : Rule → Node α → Bool}

theorem derivesAll_iff {goals : List (Goal α)} {c : Nat} :
    DerivesAll G guard goals c ↔
      ∃ ds : List (Cover α), Cover.ValidAll G guard ds ∧ ds.map Cover.goal = goals ∧ Cover.costs ds = c := by
  induction goals generalizing c with
  | nil =>
    constructor
    · rintro rfl
      exact ⟨[], trivial, rfl, rfl⟩
    · rintro ⟨ds, -, hgoals, rfl⟩
      obtain rfl := List.map_eq_nil_iff.mp hgoals
      rfl
  | cons goal goals ih =>
    obtain ⟨u, nt⟩ := goal
    constructor
    · rintro ⟨c₁, c₂, ⟨d, hd, hgoal, rfl⟩, hrest, rfl⟩
      obtain ⟨ds, hds, rfl, rfl⟩ := ih.mp hrest
      exact ⟨d :: ds, ⟨hd, hds⟩, by rw [List.map_cons, hgoal], rfl⟩
    · rintro ⟨ds, hds, hgoals, rfl⟩
      cases ds with
      | nil => cases hgoals
      | cons d ds =>
        obtain ⟨hgoal, hrest⟩ := List.cons_eq_cons.mp hgoals
        exact ⟨d.cost, Cover.costs ds, ⟨d, hds.1, hgoal, rfl⟩, ih.mpr ⟨ds, hds.2, hrest, rfl⟩, rfl⟩

/-- **One step of a derivation.** -/
theorem derives_iff {u : Node α} {nt : String} {c : Nat} :
    Derives G guard u nt c ↔ ∃ r ∈ G.rules, r.nonterm = nt ∧ guard r u = true ∧
      ∃ goals, frontier G r.pattern u = some goals ∧ ∃ c', DerivesAll G guard goals c' ∧ c = r.cost + c' := by
  constructor
  · rintro ⟨⟨r, v, subs⟩, ⟨hr, hguard, hfrontier, hsubs⟩, hgoal, rfl⟩
    obtain ⟨rfl, rfl⟩ := Prod.mk.inj hgoal
    exact ⟨r, hr, rfl, hguard, _, hfrontier, _, derivesAll_iff.mpr ⟨subs, hsubs, rfl, rfl⟩, rfl⟩
  · rintro ⟨r, hr, rfl, hguard, goals, hfrontier, c', hall, rfl⟩
    obtain ⟨subs, hsubs, rfl, rfl⟩ := derivesAll_iff.mp hall
    exact ⟨.mk r u subs, ⟨hr, hguard, hfrontier, hsubs⟩, rfl, rfl⟩

end Bbq.Burg
