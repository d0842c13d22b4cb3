import Bbq.Crt.Iterate
import Bbq.Crt.Shallow

/-!
# Radix trees in use

Trees that take their nodes from one allocator, and calls on them.

* `bbq_htree_clone` walks one tree and inserts into another, which may be the same.
* `TreeAnswers` is what finite maps answer to a call. An `insert` may be refused: the maps stay. A `clone` that is
  refused has copied the keys below the one that it stopped at.
* **`trees_kept`**: under any pattern of refusals each tree is what `crt/bbq_htree.h` says, the replies are those of
  maps, and an iteration hands out the keys in order.
-/

namespace Bbq.Crt

open Bbq.Lib HNode

variable {V : Type}

/-- The value that `bbq_htree_delete` returns. -/
def HTree.deleted (t : HTree V) (key : UInt64) : Option V := (deleteAt key t.root 0).map fun r => r.2.2

/-- A user's turn: another leaf, or the end. -/
def HTree.collect (t : HTree V) (n : Nat) :
    List (UInt64 × V) × HIter V → Option ((List (UInt64 × V) × HIter V) ⊕ List (UInt64 × V))
  | (seen, it) =>
    (it.next t n).map fun
      | (some p, it) => .inl (seen ++ [p], it)
      | (none, _) => .inr seen

/-- The leaves that `bbq_htree_next` hands out until it says that there are no more. -/
def HTree.entries (t : HTree V) (n : Nat) : Option (List (UInt64 × V)) := loop (t.collect n) n ([], .init t)

/-- The trees of a program. -/
abbrev Trees (V : Type) := Nat → HTree V

namespace Trees

variable (s : Trees V)

/-- What is found in each tree. -/
def contents (x : Nat) (key : UInt64) : Option V := (s x).search key

/-- A turn of the loop of `bbq_htree_clone`. -/
def cloneTurn (dst src n : Nat) :
    Trees V × Alloc × HIter V → Option ((Trees V × Alloc × HIter V) ⊕ Bool × Trees V × Alloc)
  | (s, a, it) =>
    (it.next (s src) n).map fun
      | (some (key, value), it) =>
        match (s dst).insert a key value with
        | (true, t, a) => .inl (Function.update s dst t, a, it)
        | (false, t, a) => .inr (false, Function.update s dst t, a)
      | (none, _) => .inr (true, s, a)

/-- `bbq_htree_clone`. -/
def clone (a : Alloc) (dst src n : Nat) : Option (Bool × Trees V × Alloc) :=
  loop (cloneTurn dst src n) n (s, a, .init (s src))

end Trees

/-- The calls of a user. -/
inductive TreeCall (V : Type)
  | insert (x : Nat) (key : UInt64) (value : V)
  | search (x : Nat) (key : UInt64)
  | delete (x : Nat) (key : UInt64)
  | clear (x : Nat)
  | clone (dst src : Nat)

/-- What they return. -/
inductive TreeReply (V : Type)
  | done (ok : Bool)
  | value (v : Option V)
  | cleared

namespace Trees

variable (s : Trees V)

def call (a : Alloc) (n : Nat) : TreeCall V → Option (TreeReply V × Trees V × Alloc)
  | .insert x key value =>
    let (ok, t, a) := (s x).insert a key value
    some (.done ok, Function.update s x t, a)
  | .search x key => some (.value ((s x).search key), s, a)
  | .delete x key => some (.value ((s x).deleted key), Function.update s x ((s x).delete key), a)
  | .clear x => some (.cleared, Function.update s x (s x).clear, a)
  | .clone dst src => (s.clone a dst src n).map fun (ok, out) => (.done ok, out)

end Trees

/-- The replies to a list of calls. -/
def Trees.calls (s : Trees V) (a : Alloc) (n : Nat) : List (TreeCall V) → Option (List (TreeReply V) × Trees V × Alloc)
  | [] => some ([], s, a)
  | c :: cs => (s.call a n c).bind fun (r, s, a) => (s.calls a n cs).map fun (rs, out) => (r :: rs, out)

/-- What maps answer to a call, and the maps that they are then; `refused` is whether memory was. -/
def TreeAnswers (refused : Prop) (m : Nat → UInt64 → Option V) :
    TreeCall V → TreeReply V → (Nat → UInt64 → Option V) → Prop
  | .insert x key value, .done true, m' => m' = Function.update m x (Function.update (m x) key (some value))
  | .insert _ _ _, .done false, m' => m' = m ∧ refused
  | .search x key, .value v, m' => v = m x key ∧ m' = m
  | .delete x key, .value v, m' => v = m x key ∧ m' = Function.update m x (Function.update (m x) key none)
  | .clear x, .cleared, m' => m' = Function.update m x fun _ => none
  | .clone dst src, .done true, m' => m' = Function.update m dst fun key => (m src key).or (m dst key)
  | .clone dst src, .done false, m' =>
    refused ∧ ∃ stop, m' = Function.update m dst fun key => if key < stop then (m src key).or (m dst key) else m dst key
  | _, _, _ => False

/-- **Replies that are the maps'**, one after the other, while the allocator goes from request to request. -/
inductive TreesFollow (grant : Nat → Bool) : Nat → (Nat → UInt64 → Option V) → List (TreeCall V) →
    List (TreeReply V) → Nat → (Nat → UInt64 → Option V) → Prop
  | nil {n : Nat} {m : Nat → UInt64 → Option V} : TreesFollow grant n m [] [] n m
  | cons {n n' n'' : Nat} {m m' m'' : Nat → UInt64 → Option V} {c : TreeCall V} {cs : List (TreeCall V)}
      {r : TreeReply V} {rs : List (TreeReply V)} (head : TreeAnswers (∃ i, n ≤ i ∧ i < n' ∧ grant i = false) m c r m')
      (rest : TreesFollow grant n' m' cs rs n'' m'') : TreesFollow grant n m (c :: cs) (r :: rs) n'' m''

/-- **The invariant** of a tree. -/
structure HTree.Sound (t : HTree V) : Prop where
  wf : t.root.Wf 0
  forked : t.root.Forked

/-- What the header says of the shape. -/
structure HTree.Shaped (t : HTree V) : Prop where
  shallowest : ∀ p ∈ t.root.places 0, p.2 ≤ nibbles ∧ Distinguishes (t.root.leaves.map Prod.fst) p.1 p.2 ∧
    ∀ d < p.2, ¬Distinguishes (t.root.leaves.map Prod.fst) p.1 d
  twoBelow : t.root.TwoBelow

namespace HTree

variable {t : HTree V}

theorem Sound.shaped (ht : t.Sound) : t.Shaped :=
  ⟨fun _ hp => places_shallowest ht.wf ht.forked hp, ht.forked.twoBelow⟩

theorem sound_init : (init : HTree V).Sound := ⟨trivial, trivial⟩

theorem Sound.search_iff (ht : t.Sound) {key : UInt64} {v : V} : t.search key = some v ↔ (key, v) ∈ t.root.leaves :=
  findAt_iff ht.wf

/-- An insertion stops for want of memory only. -/
theorem insertAt_refused {node : HNode V} {level : Nat} (a : Alloc) (key : UInt64) (value : V) {fault : Fault}
    (hwf : node.Wf level) (h : (insertAt a key value node level).1 = .error fault) : fault = .refused := by
  induction node generalizing level with
  | null =>
    unfold insertAt at h
    generalize a.request = r at h
    obtain ⟨ok, b⟩ := r
    cases ok with
    | false => exact (Except.error.inj h).symm
    | true => cases h
  | leaf k v =>
    unfold insertAt at h
    by_cases hk : k = key
    · rw [if_pos hk] at h
      cases h
    · rw [if_neg hk] at h
      generalize splitLeaf a k v level key value = r at h
      obtain ⟨t, b⟩ := r
      cases t with
      | none => exact (Except.error.inj h).symm
      | some t => cases h
  | interior children ih =>
    have hchild := ih (nibble key level) (hwf.2 _).1
    unfold insertAt at h
    rw [if_neg (Nat.not_le.mpr hwf.1)] at h
    generalize insertAt a key value (children (nibble key level)) (level + 1) = r at h hchild
    obtain ⟨res, b⟩ := r
    cases res with
    | error fault' =>
      obtain rfl := Except.error.inj h
      exact hchild rfl
    | ok res => cases h

/-- **`bbq_htree_insert`**: the key has the value then, or memory was refused and the tree is as it was. -/
theorem insert_spec (ht : t.Sound) (a : Alloc) (key : UInt64) (value : V) :
    a.Follows (t.insert a key value).2.2 ∧
      match (t.insert a key value).1 with
      | true => (t.insert a key value).2.1.Sound ∧ (t.insert a key value).2.1.gen = t.gen + 1 ∧
          ∀ k, (t.insert a key value).2.1.search k = Function.update t.search key (some value) k
      | false => Refused a (t.insert a key value).2.2 ∧ (t.insert a key value).2.1 = { t with oom := true } := by
  obtain ⟨hfollows, hres⟩ := insertAt_spec a key value ht.wf (Nat.zero_le _) under_zero
  have hforked := insertAt_forked a key value ht.wf ht.forked (Nat.zero_le _) under_zero
  have hrefused : ∀ fault, (insertAt a key value t.root 0).1 = .error fault → fault = .refused :=
    fun _ => insertAt_refused a key value ht.wf
  unfold insert
  generalize insertAt a key value t.root 0 = r at hfollows hres hforked hrefused
  obtain ⟨res, b⟩ := r
  cases res with
  | error fault =>
    obtain rfl := hrefused fault rfl
    refine ⟨hfollows, hres, ?_⟩
    change ({ t with oom := t.oom || true } : HTree V) = _
    rw [Bool.or_true]
  | ok res =>
    obtain ⟨root, new⟩ := res
    refine ⟨hfollows, ⟨hres.1, hforked⟩, rfl, fun k => ?_⟩
    rw [Function.update_apply]
    exact hres.2.findAt ht.wf hres.1 k

/-- An insertion of what is there already changes the generation only. -/
theorem insert_present (ht : t.Sound) (a : Alloc) {p : UInt64 × V} (hp : p ∈ t.root.leaves) :
    (t.insert a p.1 p.2).1 = true ∧ (t.insert a p.1 p.2).2.2 = a ∧ (t.insert a p.1 p.2).2.1.Sound ∧
      (t.insert a p.1 p.2).2.1.gen ≠ t.gen ∧ ∀ k, (t.insert a p.1 p.2).2.1.search k = t.search k := by
  obtain ⟨root, hroot⟩ := insertAt_present a p.2 ht.wf hp
  have hres := (insert_spec ht a p.1 p.2).2
  unfold insert at hres ⊢
  rw [hroot] at hres ⊢
  obtain ⟨hsound, hgen, hsearch⟩ := hres
  refine ⟨rfl, rfl, hsound, ?_, fun k => ?_⟩
  · rw [hgen]
    intro hsame
    exact absurd (UInt32.add_eq_left.mp hsame) (by decide)
  · rw [hsearch k, ← ht.search_iff.mpr hp, Function.update_eq_self]

theorem delete_sound (ht : t.Sound) (key : UInt64) :
    (t.delete key).Sound ∧ t.deleted key = t.search key ∧
      ∀ k, (t.delete key).search k = Function.update t.search key none k := by
  have hspec := deleteAt_spec key ht.wf
  have hforked := deleteAt_forked key ht.wf ht.forked
  refine ⟨?_, deleteAt_value key ht.wf, fun k => ?_⟩
  · unfold delete
    generalize deleteAt key t.root 0 = r at hspec hforked
    match r with
    | none => exact ht
    | some (root, goOn, v) => exact ⟨hspec.1, hforked.1⟩
  · rw [Function.update_apply]
    unfold delete
    generalize deleteAt key t.root 0 = r at hspec
    match r with
    | none =>
      by_cases hk : k = key
      · rw [if_pos hk, hk]
        exact (findAt_none ht.wf).mpr hspec
      · rw [if_neg hk]
    | some (root, goOn, v) => exact hspec.2.findAt ht.wf hspec.1 k

/-! ## Iteration -/

theorem iter_init (hwf : t.root.Wf 0) : Path (HIter.init t).stack ∧ todo (HIter.init t).stack = t.root.leaves := by
  unfold HIter.init
  cases hnull : t.root.isNull with
  | true =>
    rw [isNull_iff.mp hnull]
    exact ⟨trivial, rfl⟩
  | false =>
    refine ⟨⟨fun hroot => ?_, hwf, trivial⟩, ?_⟩
    · rw [hroot] at hnull
      exact absurd hnull nofun
    · simp only [Bool.false_eq_true, if_false, todo, List.flatMap_cons, List.flatMap_nil, List.append_nil, below_zero]

/-- The iterator is at its end, or hands out a leaf. -/
theorem next_cases {it : HIter V} (hp : Path it.stack) (hgen : it.gen = t.gen) :
    (todo it.stack = [] ∧ ∃ it', Settles (fun n => it.next t n) (none, it')) ∨
      ∃ p rest it', todo it.stack = p :: rest ∧ Settles (fun n => it.next t n) (some p, it') ∧
        it'.gen = t.gen ∧ Path it'.stack ∧ todo it'.stack = rest := by
  obtain ⟨found, it', hset, hgen', hpath, hfound, htail⟩ := next_spec hp hgen
  cases htodo : todo it.stack with
  | nil =>
    rw [htodo] at hfound
    rw [hfound] at hset
    exact .inl ⟨rfl, it', hset⟩
  | cons p rest =>
    rw [htodo] at hfound htail
    rw [hfound] at hset
    exact .inr ⟨p, rest, it', rfl, hset, hgen', hpath, htail⟩

/-- An iterator of a tree that has changed since is at its end. -/
theorem next_stale {it : HIter V} (hgen : it.gen ≠ t.gen) : ∃ it', ∀ n, it.next t n = some (none, it') := by
  unfold HIter.next
  by_cases hempty : it.stack = []
  · exact ⟨_, fun n => if_pos hempty⟩
  · exact ⟨_, fun n => by rw [if_neg hempty, if_pos hgen]⟩

/-- **Iteration hands out the leaves.** -/
theorem entries_leaves (hwf : t.root.Wf 0) : Settles t.entries t.root.leaves := by
  obtain ⟨hpath, htodo⟩ := iter_init hwf
  obtain ⟨out, hset, rfl⟩ := settles_loop t.collect
    (P := fun now => Path now.2.stack ∧ now.2.gen = t.gen ∧ now.1 ++ todo now.2.stack = t.root.leaves)
    (Q := fun out => out = t.root.leaves)
    (fun now => (todo now.2.stack).length) (fun ⟨seen, it⟩ ⟨hp, hgen, hall⟩ => by
      rcases next_cases hp hgen with ⟨hnil, it', hset⟩ | ⟨p, rest, it', hcons, hset, hgen', hp', hrest⟩
      · refine ⟨_, hset.map _, nofun, fun out hout => ?_⟩
        obtain rfl := Sum.inr.inj hout
        rw [← hall, hnil, List.append_nil]
      · refine ⟨_, hset.map _, fun now' hout => ?_, nofun⟩
        obtain rfl := Sum.inl.inj hout
        refine ⟨?_, hp', hgen', ?_⟩
        · rw [hrest, hcons]
          exact Nat.lt_succ_self _
        · rw [← hall, hcons, hrest, List.append_assoc]
          rfl)
    ([], .init t) ⟨hpath, rfl, htodo⟩
  exact hset

end HTree

/-! ## Clones -/

namespace Trees

variable {s : Trees V}

theorem contents_update {x : Nat} {t : HTree V} {f : UInt64 → Option V} (h : ∀ k, t.search k = f k) :
    contents (Function.update s x t) = Function.update s.contents x f := by
  funext y k
  unfold contents
  by_cases hy : y = x
  · rw [hy, Function.update_self, Function.update_self, h]
  · rw [Function.update_of_ne hy, Function.update_of_ne hy]

theorem sound_update {x : Nat} {t : HTree V} (hs : ∀ y, (s y).Sound) (ht : t.Sound) (y : Nat) :
    (Function.update s x t y).Sound := by
  by_cases hy : y = x
  · rw [hy, Function.update_self]
    exact ht
  · rw [Function.update_of_ne hy]
    exact hs y

/-- What a call must do: the allocator goes on, the trees are sound, and the reply is the maps'. -/
def Meets (s : Trees V) (a : Alloc) (c : TreeCall V) (out : TreeReply V × Trees V × Alloc) : Prop :=
  a.Follows out.2.2 ∧ (∀ x, (out.2.1 x).Sound) ∧
    TreeAnswers (Refused a out.2.2) s.contents c out.1 out.2.1.contents

/-- The state of a clone of one tree into another: `copied` are the leaves that are in the target already. -/
structure Cloning (s₀ : Trees V) (a₀ : Alloc) (dst src : Nat) (copied : List (UInt64 × V)) (s : Trees V) (a : Alloc)
    (it : HIter V) : Prop where
  follows : a₀.Follows a
  sound : ∀ x, (s x).Sound
  source : s src = s₀ src
  gen : it.gen = (s src).gen
  path : Path it.stack
  split : (s src).root.leaves = copied ++ todo it.stack
  target : s.contents = Function.update s₀.contents dst fun k =>
    if k ∈ copied.map Prod.fst then (s₀.contents src k).or (s₀.contents dst k) else s₀.contents dst k

namespace Cloning

variable {s₀ : Trees V} {a₀ a : Alloc} {dst src : Nat} {copied : List (UInt64 × V)} {it : HIter V}

/-- What the source has for a key that is not among the copied leaves nor among those to come. -/
theorem absent (h : Cloning s₀ a₀ dst src copied s a it) {k : UInt64} (hcopied : k ∉ copied.map Prod.fst)
    (htodo : ∀ p ∈ todo it.stack, p.1 ≠ k) : s₀.contents src k = none := by
  rw [contents, ← h.source, Option.eq_none_iff_forall_ne_some]
  intro v hv
  have hmem := (h.sound src).search_iff.mp hv
  rw [h.split, List.mem_append] at hmem
  rcases hmem with hmem | hmem
  · exact hcopied (List.mem_map_of_mem hmem)
  · exact htodo _ hmem rfl

theorem done (h : Cloning s₀ a₀ dst src copied s a it) (hnil : todo it.stack = []) :
    Meets s₀ a₀ (.clone dst src) (.done true, s, a) := by
  refine ⟨h.follows, h.sound, ?_⟩
  change s.contents = _
  rw [h.target]
  congr 1
  funext k
  by_cases hk : k ∈ copied.map Prod.fst
  · rw [if_pos hk]
  · rw [if_neg hk, h.absent hk (by rw [hnil]; exact nofun), Option.none_or]

variable {p : UInt64 × V} {rest : List (UInt64 × V)}

/-- The leaves are copied in order. -/
theorem ordered (h : Cloning s₀ a₀ dst src copied s a it) (hcons : todo it.stack = p :: rest) :
    (∀ q ∈ copied, q.1 < p.1) ∧ ∀ q ∈ rest, p.1 < q.1 := by
  have hsorted := leaves_sorted (h.sound src).wf (Nat.zero_le _) fun _ _ _ _ _ hl => absurd hl (Nat.not_lt_zero _)
  rw [h.split, hcons, List.pairwise_append, List.pairwise_cons] at hsorted
  exact ⟨fun q hq => hsorted.2.2 q hq p List.mem_cons_self, hsorted.2.1.1⟩

theorem refused (h : Cloning s₀ a₀ dst src copied s a it) (hcons : todo it.stack = p :: rest) {a' : Alloc}
    (hfollows : a.Follows a') (hrefused : Refused a a') :
    Meets s₀ a₀ (.clone dst src) (.done false, Function.update s dst { s dst with oom := true }, a') := by
  obtain ⟨hbefore, hbehind⟩ := h.ordered hcons
  obtain ⟨n, hlow, hhigh, hno⟩ := hrefused
  refine ⟨⟨hfollows.1.trans h.follows.1, Nat.le_trans h.follows.2 hfollows.2⟩,
    sound_update h.sound ⟨(h.sound dst).wf, (h.sound dst).forked⟩,
    ⟨n, Nat.le_trans h.follows.2 hlow, hhigh, by rw [← h.follows.1]; exact hno⟩, p.1, ?_⟩
  change contents (Function.update s dst { s dst with oom := true }) = _
  have hsame := contents_update (s := s) (x := dst) (t := { s dst with oom := true }) (f := s.contents dst) fun _ => rfl
  rw [hsame, Function.update_eq_self, h.target]
  congr 1
  funext k
  by_cases hk : k ∈ copied.map Prod.fst
  · obtain ⟨q, hq, rfl⟩ := List.mem_map.mp hk
    rw [if_pos hk, if_pos (hbefore q hq)]
  · rw [if_neg hk]
    by_cases hlt : k < p.1
    · rw [if_pos hlt, h.absent hk, Option.none_or]
      intro q hq hqk
      rw [hcons] at hq
      subst hqk
      rcases List.mem_cons.mp hq with rfl | hq
      · exact absurd hlt (UInt64.lt_irrefl _)
      · exact absurd (UInt64.lt_trans (hbehind q hq) hlt) (UInt64.lt_irrefl _)
    · rw [if_neg hlt]

/-- The next leaf is copied. -/
theorem step (h : Cloning s₀ a₀ dst src copied s a it) (hne : dst ≠ src) (hcons : todo it.stack = p :: rest) {a' : Alloc}
    (hfollows : a.Follows a') {t : HTree V} (ht : t.Sound)
    (hsearch : ∀ k, t.search k = Function.update (s dst).search p.1 (some p.2) k) {it' : HIter V}
    (hgen : it'.gen = (s src).gen) (hpath : Path it'.stack) (hrest : todo it'.stack = rest) :
    Cloning s₀ a₀ dst src (copied ++ [p]) (Function.update s dst t) a' it' where
  follows := ⟨hfollows.1.trans h.follows.1, Nat.le_trans h.follows.2 hfollows.2⟩
  sound := sound_update h.sound ht
  source := by rw [Function.update_of_ne hne.symm, h.source]
  gen := by rw [Function.update_of_ne hne.symm, hgen]
  path := hpath
  split := by
    rw [Function.update_of_ne hne.symm, h.split, hcons, hrest, List.append_assoc]
    rfl
  target := by
    have hvalue : s₀.contents src p.1 = some p.2 := by
      rw [contents, ← h.source, (h.sound src).search_iff, h.split, hcons]
      exact List.mem_append_right _ List.mem_cons_self
    have hdst : ∀ k, (s dst).search k = _ := fun k => congrFun (congrFun h.target dst) k
    rw [contents_update hsearch, h.target, Function.update_idem]
    congr 1
    funext k
    have hmem : k ∈ (copied ++ [p]).map Prod.fst ↔ k ∈ copied.map Prod.fst ∨ k = p.1 := by
      rw [List.map_append, List.mem_append, List.map_singleton, List.mem_singleton]
    by_cases hk : k = p.1
    · rw [if_pos (hmem.mpr (.inr hk)), hk, Function.update_self, hvalue, Option.some_or]
    · rw [Function.update_of_ne hk, hdst k, Function.update_self]
      simp only [hmem, hk, or_false]

end Cloning

variable {s₀ : Trees V} {a₀ a : Alloc} {dst src : Nat} {copied : List (UInt64 × V)} {it : HIter V}

theorem cloneTurn_some {p : UInt64 × V} {it' : HIter V} {ok : Bool} {t : HTree V} {a' : Alloc}
    (hset : Settles (fun n => it.next (s src) n) (some p, it')) (hinsert : (s dst).insert a p.1 p.2 = (ok, t, a')) :
    Settles (fun n => cloneTurn dst src n (s, a, it))
      (if ok then .inl (Function.update s dst t, a', it') else .inr (false, Function.update s dst t, a')) := by
  obtain ⟨enough, henough⟩ := hset
  refine ⟨enough, fun n hn => ?_⟩
  simp only [cloneTurn, henough n hn, Option.map_some, hinsert]
  cases ok with
  | true => rfl
  | false => rfl

/-- **A turn of a clone** copies the next leaf, or is the last one. -/
theorem cloneTurn_spec (hne : dst ≠ src) (h : Cloning s₀ a₀ dst src copied s a it) :
    ∃ r, Settles (fun n => cloneTurn dst src n (s, a, it)) r ∧
      match r with
      | .inl (s', a', it') => (todo it'.stack).length < (todo it.stack).length ∧
          ∃ copied', Cloning s₀ a₀ dst src copied' s' a' it'
      | .inr (ok, s', a') => Meets s₀ a₀ (.clone dst src) (.done ok, s', a') := by
  rcases HTree.next_cases h.path h.gen with ⟨hnil, it', hset⟩ | ⟨p, rest, it', hcons, hset, hgen, hpath, hrest⟩
  · exact ⟨_, hset.map _, h.done hnil⟩
  · obtain ⟨hfollows, hres⟩ := HTree.insert_spec (h.sound dst) a p.1 p.2
    obtain ⟨⟨ok, t, a'⟩, hinsert⟩ : ∃ r, (s dst).insert a p.1 p.2 = r := ⟨_, rfl⟩
    rw [hinsert] at hfollows hres
    refine ⟨_, cloneTurn_some hset hinsert, ?_⟩
    cases ok with
    | true =>
      refine ⟨?_, _, h.step hne hcons hfollows hres.1 hres.2.2 hgen hpath hrest⟩
      rw [hcons, hrest]
      exact Nat.lt_succ_self _
    | false =>
      obtain ⟨hrefused, rfl⟩ := hres
      exact h.refused hcons hfollows hrefused

/-- **A clone into another tree.** -/
theorem clone_other (hs : ∀ x, (s x).Sound) (a : Alloc) (hne : dst ≠ src) :
    ∃ out, Settles (fun n => s.clone a dst src n) out ∧ Meets s a (.clone dst src) (.done out.1, out.2) := by
  obtain ⟨hpath, htodo⟩ := HTree.iter_init (hs src).wf
  have hstart : Cloning s a dst src [] s a (.init (s src)) := by
    refine ⟨⟨rfl, le_refl _⟩, hs, rfl, rfl, hpath, by rw [htodo]; rfl, ?_⟩
    simp only [List.map_nil, List.not_mem_nil, if_false]
    exact (Function.update_eq_self dst s.contents).symm
  exact settles_loop (cloneTurn dst src)
    (P := fun now => ∃ copied, Cloning s a dst src copied now.1 now.2.1 now.2.2)
    (Q := fun out => Meets s a (.clone dst src) (.done out.1, out.2))
    (fun now => (todo now.2.2.stack).length) (fun ⟨s', a', it⟩ ⟨copied, h⟩ => by
      obtain ⟨r, hset, hcase⟩ := cloneTurn_spec hne h
      refine ⟨r, hset, fun now' hout => ?_, fun out hout => ?_⟩
      · subst hout
        exact hcase
      · subst hout
        exact hcase)
    (s, a, .init (s src)) ⟨[], hstart⟩

/-- **A clone of a tree into itself** stops behind the first leaf: the tree is another generation then. -/
theorem clone_self (hs : ∀ x, (s x).Sound) (a : Alloc) (x : Nat) :
    ∃ out, Settles (fun n => s.clone a x x n) out ∧ Meets s a (.clone x x) (.done out.1, out.2) := by
  have hmeets : ∀ s' : Trees V, (∀ y, (s' y).Sound) → s'.contents = s.contents →
      Meets s a (.clone x x) (.done true, s', a) := by
    intro s' hs' hsame
    refine ⟨⟨rfl, le_refl _⟩, hs', ?_⟩
    change s'.contents = _
    simp only [Option.or_self]
    rw [hsame]
    exact (Function.update_eq_self x s.contents).symm
  obtain ⟨hpath, htodo⟩ := HTree.iter_init (hs x).wf
  exact settles_loop (cloneTurn x x)
    (P := fun now => now = (s, a, .init (s x)) ∨ now.2.1 = a ∧ (∀ y, (now.1 y).Sound) ∧ now.1.contents = s.contents ∧
      now.2.2.gen ≠ (now.1 x).gen)
    (Q := fun out => Meets s a (.clone x x) (.done out.1, out.2))
    (fun now => if now.2.2.gen = (now.1 x).gen then 1 else 0) (fun now hnow => by
      rcases hnow with rfl | ⟨ha, hs', hsame, hstale⟩
      · rcases HTree.next_cases hpath rfl with ⟨hnil, it', hset⟩ | ⟨p, rest, it', hcons, hset, hgen, -⟩
        · refine ⟨_, hset.map _, nofun, fun out hout => ?_⟩
          obtain rfl := Sum.inr.inj hout
          exact hmeets s hs rfl
        · have hmem : p ∈ (s x).root.leaves := by
            rw [← htodo, hcons]
            exact List.mem_cons_self
          have hkept := HTree.insert_present (hs x) a hmem
          obtain ⟨⟨ok, t, a'⟩, hinsert⟩ : ∃ r, (s x).insert a p.1 p.2 = r := ⟨_, rfl⟩
          rw [hinsert] at hkept
          obtain ⟨rfl, rfl, hsound, hstale, hsearch⟩ := hkept
          refine ⟨_, cloneTurn_some hset hinsert, fun now' hout => ?_, nofun⟩
          obtain rfl := Sum.inl.inj hout
          have hfirst : (HIter.init (s x)).gen = (s x).gen := rfl
          have hgens : it'.gen ≠ (Function.update s x t x).gen := by
            rw [Function.update_self, hgen]
            exact hstale.symm
          refine ⟨?_, .inr ⟨rfl, sound_update hs hsound, ?_, hgens⟩⟩
          · dsimp only
            rw [if_neg hgens, if_pos hfirst]
            exact Nat.lt_succ_self _
          · dsimp only
            rw [contents_update hsearch]
            exact Function.update_eq_self x s.contents
      · obtain ⟨it', hend⟩ := HTree.next_stale hstale
        obtain ⟨s', a', it⟩ := now
        obtain rfl : a' = a := ha
        refine ⟨_, (Settles.of_forall hend).map _, nofun, fun out hout => ?_⟩
        obtain rfl := Sum.inr.inj hout
        exact hmeets s' hs' hsame)
    (s, a, .init (s x)) (.inl rfl)

/-! ## Runs -/

/-- **One call** answers as maps do. -/
theorem call_meets (hs : ∀ x, (s x).Sound) (a : Alloc) (c : TreeCall V) :
    ∃ out, Settles (fun n => s.call a n c) out ∧ Meets s a c out := by
  cases c with
  | insert x key value =>
    obtain ⟨hfollows, hres⟩ := HTree.insert_spec (hs x) a key value
    obtain ⟨⟨ok, t, a'⟩, hinsert⟩ : ∃ r, (s x).insert a key value = r := ⟨_, rfl⟩
    rw [hinsert] at hfollows hres
    refine ⟨(.done ok, Function.update s x t, a'), .of_forall fun _ => by simp only [call, hinsert], ?_⟩
    cases ok with
    | true => exact ⟨hfollows, sound_update hs hres.1, contents_update hres.2.2⟩
    | false =>
      obtain ⟨hrefused, rfl⟩ := hres
      refine ⟨hfollows, sound_update hs ⟨(hs x).wf, (hs x).forked⟩, ?_, hrefused⟩
      have hsame := contents_update (s := s) (x := x) (t := { s x with oom := true }) (f := s.contents x) fun _ => rfl
      exact hsame.trans (Function.update_eq_self x s.contents)
  | search x key => exact ⟨_, .const _, ⟨rfl, le_refl _⟩, hs, rfl, rfl⟩
  | delete x key =>
    obtain ⟨hsound, hvalue, hsearch⟩ := HTree.delete_sound (hs x) key
    exact ⟨_, .const _, ⟨rfl, le_refl _⟩, sound_update hs hsound, hvalue, contents_update hsearch⟩
  | clear x =>
    exact ⟨_, .const _, ⟨rfl, le_refl _⟩, sound_update hs ⟨trivial, trivial⟩, contents_update fun _ => rfl⟩
  | clone dst src =>
    by_cases hne : dst = src
    · subst hne
      obtain ⟨out, hset, hmeets⟩ := clone_self hs a dst
      exact ⟨_, hset.map _, hmeets⟩
    · obtain ⟨out, hset, hmeets⟩ := clone_other hs a hne
      exact ⟨_, hset.map _, hmeets⟩

theorem calls_sound (cs : List (TreeCall V)) (hs : ∀ x, (s x).Sound) (a : Alloc) :
    ∃ out, Settles (fun n => s.calls a n cs) out ∧ (∀ x, (out.2.1 x).Sound) ∧
      TreesFollow a.grant a.asked s.contents cs out.1 out.2.2.asked out.2.1.contents := by
  induction cs generalizing s a with
  | nil => exact ⟨_, .const _, hs, .nil⟩
  | cons c cs ih =>
    obtain ⟨⟨r, s', a'⟩, hset, hfollows, hs', hanswer⟩ := call_meets hs a c
    obtain ⟨⟨rs, out⟩, hrest, hsound, hreplies⟩ := ih hs' a'
    rw [hfollows.1] at hreplies
    exact ⟨_, hset.bind (hrest.map _), hsound, .cons hanswer hreplies⟩

/-- **The trees are kept**, under any calls and any pattern of refusals. -/
theorem trees_kept (grant : Nat → Bool) (cs : List (TreeCall V)) :
    ∃ (replies : List (TreeReply V)) (s : Trees V) (a : Alloc) (m : Nat → UInt64 → Option V),
      Settles (fun n => calls (fun _ => .init) ⟨grant, 0⟩ n cs) (replies, s, a) ∧
      TreesFollow grant 0 (fun _ _ => none) cs replies a.asked m ∧
      ∀ x, (s x).Shaped ∧ (∀ key, (s x).search key = m x key) ∧
        (∃ entries, Settles (s x).entries entries ∧ entries.Pairwise (fun p q => p.1 < q.1) ∧
          ∀ key v, (key, v) ∈ entries ↔ m x key = some v) ∧
        ∀ key value, ((s x).insert a key value).1 = false →
          Refused a ((s x).insert a key value).2.2 ∧ ((s x).insert a key value).2.1 = { s x with oom := true } := by
  obtain ⟨⟨replies, s, a⟩, hset, hsound, hreplies⟩ :=
    calls_sound (s := fun _ => .init) cs (fun _ => HTree.sound_init) ⟨grant, 0⟩
  refine ⟨replies, s, a, s.contents, hset, hreplies, fun x => ⟨(hsound x).shaped, fun _ => rfl, ?_, ?_⟩⟩
  · refine ⟨_, HTree.entries_leaves (hsound x).wf, ?_, fun key v => (hsound x).search_iff.symm⟩
    exact leaves_sorted (hsound x).wf (Nat.zero_le _) fun _ _ _ _ _ hl => absurd hl (Nat.not_lt_zero _)
  · intro key value hno
    have hres := (HTree.insert_spec (hsound x) a key value).2
    rw [hno] at hres
    exact hres

end Trees

end Bbq.Crt
