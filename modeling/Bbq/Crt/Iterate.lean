import Bbq.Crt.Dict

/-!
# Iteration

`bbq_htree_next` keeps the path to where it is, each node with the child to look at next, and `bbq_dict_next`
walks a chain before it asks for another.

* The stack is a list with the top in front. Past its 17 slots, and at a null pointer on it, a step is `none`.
* **`next_spec`**: the iterator hands out the next leaf that `todo` says is to come.
* **`entries_spec`**: a user who calls `bbq_dict_next` until it says no gets each entry once.
-/

namespace Bbq.Crt

open Bbq.Lib HNode

variable {V : Type}

/-- `bbq_htree_iter`. -/
structure HIter (V : Type) where
  gen : UInt32
  stack : List (HNode V × Nat)

/-- `bbq_htree_iter_init`. -/
def HIter.init (t : HTree V) : HIter V :=
  { gen := t.gen, stack := if t.root.isNull then [] else [(t.root, 0)] }

/-- The first child from `i` on that is there. -/
def nextChild (children : Fin 16 → HNode V) (i : Nat) : Option (Fin 16) :=
  ((List.finRange 16).drop i).find? fun j => !(children j).isNull

/-- A turn of the loop of `bbq_htree_next`. -/
def HIter.turn : List (HNode V × Nat) → Option (List (HNode V × Nat) ⊕ Option (UInt64 × V) × List (HNode V × Nat))
  | [] => some (.inr (none, []))
  | (.null, _) :: _ => none
  | (.leaf key value, _) :: rest => some (.inr (some (key, value), rest))
  | (.interior children, i) :: rest =>
    match nextChild children i with
    | some j =>
      if rest.length + 1 < nibbles + 1 then
        some (.inl ((children j, 0) :: (.interior children, j.val + 1) :: rest))
      else none
    | none => some (.inl rest)

/-- `bbq_htree_next`: the leaf, if there is one, and the iterator then. -/
def HIter.next (t : HTree V) (n : Nat) (it : HIter V) : Option (Option (UInt64 × V) × HIter V) :=
  if it.stack = [] then some (none, it)
  else if it.gen ≠ t.gen then some (none, { it with stack := [] })
  else (loop HIter.turn n it.stack).map fun (found, stack) => (found, { it with stack })

/-- `bbq_dict_iter`. -/
structure DictIter (V : Type) where
  tit : HIter (List (Entry V))
  cur : List (Entry V)
  gen : UInt32

/-- `bbq_dict_iter_init`. -/
def DictIter.init (d : Dict V) : DictIter V := { tit := .init d.index, cur := [], gen := d.gen }

/-- A turn of the loop of `bbq_dict_next`. -/
def DictIter.turn (d : Dict V) (n : Nat) (it : DictIter V) : Option (DictIter V ⊕ Option (Entry V) × DictIter V) :=
  match it.cur with
  | e :: rest => some (.inr (some e, { it with cur := rest }))
  | [] =>
    (it.tit.next d.index n).map fun
      | (some (_, chain), tit) => .inl { it with tit, cur := chain }
      | (none, tit) => .inr (none, { it with tit })

/-- `bbq_dict_next`: the entry, if there is one, and the iterator then. -/
def DictIter.next (d : Dict V) (n : Nat) (it : DictIter V) : Option (Option (Entry V) × DictIter V) :=
  if it.gen ≠ d.gen then some (none, it) else loop (DictIter.turn d n) n it

/-- A user's turn: another entry, or the end. -/
def Dict.collect (d : Dict V) (n : Nat) :
    List (Entry V) × DictIter V → Option ((List (Entry V) × DictIter V) ⊕ List (Entry V))
  | (seen, it) =>
    (it.next d n).map fun
      | (some e, it) => .inl (seen ++ [e], it)
      | (none, _) => .inr seen

/-- The entries that `bbq_dict_next` hands out until it says that there are no more. -/
def Dict.entries (d : Dict V) (n : Nat) : Option (List (Entry V)) := loop (d.collect n) n ([], .init d)

/-! ## The leaves to come -/

/-- The leaves below a node from the child `i` on. -/
def below : HNode V → Nat → List (UInt64 × V)
  | .null, _ => []
  | .leaf key value, _ => [(key, value)]
  | .interior children, i => ((List.finRange 16).drop i).flatMap fun j => leaves (children j)

/-- The leaves that an iterator has yet to hand out. -/
def todo (stack : List (HNode V × Nat)) : List (UInt64 × V) := stack.flatMap fun f => below f.1 f.2

theorem below_zero (t : HNode V) : below t 0 = leaves t := by
  cases t with
  | null => rfl
  | leaf key value => rfl
  | interior children => rw [below, leaves, List.drop_zero]

/-- The turns that a node's subtree takes. -/
def HNode.size : HNode V → Nat
  | null => 0
  | leaf _ _ => 1
  | interior children => 1 + ((List.finRange 16).map fun i => 1 + size (children i)).sum

/-- The turns that are left in a node from the child `i` on. -/
def left : HNode V → Nat → Nat
  | .null, _ => 0
  | .leaf _ _, _ => 1
  | .interior children, i => 1 + (((List.finRange 16).drop i).map fun j => 1 + (children j).size).sum

theorem left_zero (t : HNode V) : left t 0 = t.size := by
  cases t with
  | null => rfl
  | leaf key value => rfl
  | interior children => rw [left, HNode.size, List.drop_zero]

/-- The paths that an iterator stands on: each node is well-formed at its depth and none is null. -/
def Path : List (HNode V × Nat) → Prop
  | [] => True
  | (t, _) :: rest => t ≠ null ∧ t.Wf rest.length ∧ Path rest

variable {children : Fin 16 → HNode V} {i : Nat} {j : Fin 16}

/-- The children from `i` on are null ones, the one that is found and the ones behind it. -/
theorem nextChild_some (h : nextChild children i = some j) :
    ∃ skipped, (List.finRange 16).drop i = skipped ++ j :: (List.finRange 16).drop (j.val + 1) ∧
      (∀ k ∈ skipped, children k = null) ∧ children j ≠ null := by
  rw [nextChild, List.find?_eq_some_iff_append] at h
  obtain ⟨hj, skipped, behind, hsplit, hskipped⟩ := h
  have hpos : j.val = i + skipped.length := by
    have hget := congrArg (fun l => l[skipped.length]?) hsplit
    simp only [List.getElem?_drop, List.getElem?_append_right (le_refl _), Nat.sub_self, List.getElem?_cons_zero] at hget
    obtain ⟨hlt, hval⟩ := List.getElem?_eq_some_iff.mp hget
    rw [List.getElem_finRange] at hval
    rw [← hval]
    rfl
  have hbehind : behind = (List.finRange 16).drop (j.val + 1) := by
    have hdrop := congrArg (List.drop (skipped.length + 1)) hsplit
    rw [List.drop_drop] at hdrop
    rw [hpos, Nat.add_assoc, hdrop, List.drop_append]
    simp
  refine ⟨skipped, by rw [hsplit, hbehind], fun k hk => ?_, fun hnull => ?_⟩
  · have hnot := hskipped k hk
    rw [Bool.not_not] at hnot
    exact isNull_iff.mp hnot
  · rw [hnull] at hj
    exact absurd hj nofun

theorem nextChild_none (h : nextChild children i = none) : ∀ k ∈ (List.finRange 16).drop i, children k = null := by
  rw [nextChild, List.find?_eq_none] at h
  intro k hk
  have hnot := h k hk
  rw [Bool.not_eq_true', Bool.not_eq_false] at hnot
  exact isNull_iff.mp hnot

/-- The turns that are left in all. -/
def turnsLeft (stack : List (HNode V × Nat)) : Nat := (stack.map fun f => left f.1 f.2).sum

/-- **A turn**: the leaves to come are the same, and fewer turns are left, or the first leaf is handed out. -/
theorem turn_spec {stack : List (HNode V × Nat)} (hp : Path stack) :
    ∃ r, HIter.turn stack = some r ∧
      match r with
      | .inl stack' => turnsLeft stack' < turnsLeft stack ∧ Path stack' ∧ todo stack' = todo stack
      | .inr (found, stack') => Path stack' ∧ found = (todo stack).head? ∧ todo stack' = (todo stack).tail := by
  match stack with
  | [] => exact ⟨_, rfl, trivial, rfl, rfl⟩
  | (.null, _) :: rest => exact absurd rfl hp.1
  | (.leaf key value, i) :: rest => exact ⟨_, rfl, hp.2.2, rfl, rfl⟩
  | (.interior children, i) :: rest =>
    obtain ⟨hne, hwf, hrest⟩ := hp
    unfold HIter.turn
    dsimp only
    cases hchild : nextChild children i with
    | none =>
      have hnull := nextChild_none hchild
      refine ⟨_, rfl, ?_, hrest, ?_⟩
      · rw [turnsLeft, turnsLeft, List.map_cons, List.sum_cons, left]
        omega
      · have hnil : below (interior children) i = [] := by
          rw [below, List.flatMap_eq_nil_iff]
          intro k hk
          rw [hnull k hk]
          rfl
        rw [todo, todo, List.flatMap_cons, hnil, List.nil_append]
    | some j =>
      obtain ⟨skipped, hsplit, hskipped, hj⟩ := nextChild_some hchild
      have hdepth : rest.length + 1 < nibbles + 1 := Nat.succ_lt_succ hwf.1
      simp only [if_pos hdepth]
      refine ⟨_, rfl, ?_, ⟨hj, (hwf.2 j).1, hne, hwf, hrest⟩, ?_⟩
      · have hinner : left (interior children) i =
            1 + ((skipped.map fun k => 1 + (children k).size).sum + (1 + (children j).size +
              (((List.finRange 16).drop (j.val + 1)).map fun k => 1 + (children k).size).sum)) := by
          rw [left, hsplit, List.map_append, List.sum_append, List.map_cons, List.sum_cons]
        simp only [turnsLeft, List.map_cons, List.sum_cons, left_zero]
        rw [hinner, left]
        omega
      · have hnil : (skipped.flatMap fun k => leaves (children k)) = [] := by
          rw [List.flatMap_eq_nil_iff]
          intro k hk
          rw [hskipped k hk]
          rfl
        simp only [todo, List.flatMap_cons, below_zero]
        rw [below, below, hsplit, List.flatMap_append, hnil, List.nil_append, List.flatMap_cons, List.append_assoc]

/-- **`bbq_htree_next`** hands out the next leaf. -/
theorem next_spec {t : HTree V} {it : HIter V} (hp : Path it.stack) (hgen : it.gen = t.gen) :
    ∃ found it', Settles (fun n => it.next t n) (found, it') ∧ it'.gen = t.gen ∧ Path it'.stack ∧
      found = (todo it.stack).head? ∧ todo it'.stack = (todo it.stack).tail := by
  unfold HIter.next
  by_cases hempty : it.stack = []
  · simp only [if_pos hempty]
    exact ⟨_, _, .const _, hgen, hp, by rw [hempty]; rfl, by rw [hempty]; rfl⟩
  · simp only [if_neg hempty, hgen, ne_eq, not_true_eq_false, if_false]
    obtain ⟨⟨found, stack⟩, hset, hq⟩ := settles_loop (fun _ => HIter.turn)
      (P := fun stack => Path stack ∧ todo stack = todo it.stack)
      (Q := fun (out : Option (UInt64 × V) × List (HNode V × Nat)) =>
        Path out.2 ∧ out.1 = (todo it.stack).head? ∧ todo out.2 = (todo it.stack).tail)
      turnsLeft (fun stack ⟨hstack, htodo⟩ => by
        obtain ⟨r, hr, hcase⟩ := turn_spec hstack
        refine ⟨r, .of_forall fun _ => hr, fun stack' hinl => ?_, fun out hinr => ?_⟩
        · subst hinl
          exact ⟨hcase.1, hcase.2.1, hcase.2.2.trans htodo⟩
        · subst hinr
          rw [htodo] at hcase
          exact hcase)
      it.stack ⟨hp, rfl⟩
    exact ⟨_, _, hset.map _, rfl, hq⟩

/-! ## The entries to come -/

/-- The entries that an iterator has yet to hand out. -/
def pending (it : DictIter V) : List (Entry V) := it.cur ++ (todo it.tit.stack).flatMap Prod.snd

/-- An iterator of a dictionary that has not changed since. -/
structure DictIter.Live (d : Dict V) (it : DictIter V) : Prop where
  path : Path it.tit.stack
  tree : it.tit.gen = d.index.gen
  same : it.gen = d.gen

/-- **`bbq_dict_next`** hands out the next entry. -/
theorem dictNext_spec {d : Dict V} {it : DictIter V} (hlive : it.Live d) :
    ∃ found it', Settles (fun n => it.next d n) (found, it') ∧ it'.Live d ∧
      found = (pending it).head? ∧ pending it' = (pending it).tail := by
  simp only [DictIter.next, hlive.same, ne_eq, not_true_eq_false, if_false]
  obtain ⟨⟨found, it'⟩, hset, hq⟩ := settles_loop (DictIter.turn d)
    (P := fun now => now.Live d ∧ pending now = pending it)
    (Q := fun (out : Option (Entry V) × DictIter V) =>
      out.2.Live d ∧ out.1 = (pending it).head? ∧ pending out.2 = (pending it).tail)
    (fun now => (todo now.tit.stack).length) (fun now ⟨hnow, hpending⟩ => by
      unfold DictIter.turn
      cases hcur : now.cur with
      | cons e rest =>
        refine ⟨_, .const _, nofun, fun out hout => ?_⟩
        obtain rfl := Sum.inr.inj hout
        rw [← hpending, pending, hcur]
        exact ⟨⟨hnow.path, hnow.tree, hnow.same⟩, rfl, rfl⟩
      | nil =>
        obtain ⟨found, tit, hset, hgen, hpath, hfound, htail⟩ := next_spec hnow.path hnow.tree
        rw [pending, hcur, List.nil_append] at hpending
        refine ⟨_, hset.map _, fun now' hout => ?_, fun out hout => ?_⟩
        · cases htodo : todo now.tit.stack with
          | nil =>
            rw [htodo] at hfound
            rw [hfound] at hout
            exact absurd hout nofun
          | cons p more =>
            rw [htodo] at hfound htail hpending
            rw [hfound] at hout
            obtain rfl := Sum.inl.inj hout
            refine ⟨?_, ⟨hpath, hgen, hnow.same⟩, ?_⟩
            · rw [htail]
              exact Nat.lt_succ_self _
            · rw [← hpending, pending, htail]
              rfl
        · cases htodo : todo now.tit.stack with
          | nil =>
            rw [htodo] at hfound htail hpending
            rw [hfound] at hout
            obtain rfl := Sum.inr.inj hout
            refine ⟨⟨hpath, hgen, hnow.same⟩, by rw [← hpending]; rfl, ?_⟩
            rw [← hpending, pending, htail]
            rfl
          | cons p more =>
            rw [htodo] at hfound
            rw [hfound] at hout
            exact absurd hout nofun)
    it ⟨hlive, rfl⟩
  exact ⟨found, it', hset, hq⟩

/-- **Iteration hands out the chains of the tree.** -/
theorem entries_spec {d : Dict V} (hwf : d.index.root.Wf 0) :
    Settles d.entries (d.index.root.leaves.flatMap Prod.snd) := by
  have hinit : (DictIter.init d).Live d ∧ pending (DictIter.init d) = d.index.root.leaves.flatMap Prod.snd := by
    unfold DictIter.init HIter.init pending
    cases hnull : d.index.root.isNull with
    | true =>
      rw [isNull_iff.mp hnull]
      exact ⟨⟨trivial, rfl, rfl⟩, rfl⟩
    | false =>
      refine ⟨⟨⟨fun hroot => ?_, hwf, trivial⟩, rfl, rfl⟩, ?_⟩
      · rw [hroot] at hnull
        exact absurd hnull nofun
      · simp only [Bool.false_eq_true, if_false, todo, List.flatMap_cons, List.flatMap_nil, List.append_nil,
          List.nil_append, below_zero]
  obtain ⟨out, hset, rfl⟩ := settles_loop d.collect
    (P := fun now => now.2.Live d ∧ now.1 ++ pending now.2 = d.index.root.leaves.flatMap Prod.snd)
    (Q := fun out => out = d.index.root.leaves.flatMap Prod.snd)
    (fun now => (pending now.2).length) (fun ⟨seen, it⟩ ⟨hlive, hall⟩ => by
      obtain ⟨found, it', hset, hlive', hfound, htail⟩ := dictNext_spec hlive
      refine ⟨_, hset.map _, fun now' hout => ?_, fun out hout => ?_⟩
      · cases hpending : pending it with
        | nil =>
          rw [hpending] at hfound
          rw [hfound] at hout
          exact absurd hout nofun
        | cons e more =>
          rw [hpending] at hfound htail
          rw [hfound] at hout
          obtain rfl := Sum.inl.inj hout
          refine ⟨?_, hlive', ?_⟩
          · rw [htail]
            exact Nat.lt_succ_self _
          · rw [← hall, hpending, htail, List.append_assoc]
            rfl
      · cases hpending : pending it with
        | nil =>
          rw [hpending] at hfound hall
          rw [hfound] at hout
          obtain rfl := Sum.inr.inj hout
          rw [← hall, List.append_nil]
        | cons e more =>
          rw [hpending] at hfound
          rw [hfound] at hout
          exact absurd hout nofun)
    ([], .init d) ⟨hinit.1, by rw [hinit.2]; rfl⟩
  exact hset

end Bbq.Crt
