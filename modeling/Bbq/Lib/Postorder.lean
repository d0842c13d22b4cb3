import Mathlib.Data.Fintype.EquivFin
import Mathlib.Logic.Relation
import Bbq.Lib.Settle

/-!
# Depth-first search on a stack

The search with a stack of frames, each a node and the index of the successor to be looked at next, for
any graph given by lists of successors, some of which may be null.

* `Explores` is the recursive search: what has been seen afterwards, and the nodes in the order they
  are left (postorder). `Explores.nodup`, `Explores.mem_iff`: each node that can be reached is left once.
* `searchTurn` is a turn of the stack's loop. It asks before it keeps anything, and gives up where it
  is refused.
* **`search_settles`**: on a finite graph the loop ends. It was granted all it asked for and has the
  postorder of a recursive search, or it was refused.

Nothing here is about a particular graph.
-/

namespace Bbq.Lib

variable {ν γ : Type*}

section Explores

variable (succs : ν → List (Option ν))

mutual

/-- The search from a node: the nodes seen before it, the node, those seen afterwards, and those left. -/
inductive Explores : List ν → ν → List ν → List ν → Prop
  | mk {seen seen' out : List ν} {n : ν} : ExploresAll (n :: seen) (succs n) seen' out →
      Explores seen n seen' (out ++ [n])

/-- The search from successors one after the other. -/
inductive ExploresAll : List ν → List (Option ν) → List ν → List ν → Prop
  | nil {seen : List ν} : ExploresAll seen [] seen []
  | null {seen seen' out : List ν} {ss : List (Option ν)} :
      ExploresAll seen ss seen' out → ExploresAll seen (none :: ss) seen' out
  | old {seen seen' out : List ν} {ss : List (Option ν)} {n : ν} :
      n ∈ seen → ExploresAll seen ss seen' out → ExploresAll seen (some n :: ss) seen' out
  | fresh {seen seen₁ seen₂ out₁ out₂ : List ν} {ss : List (Option ν)} {n : ν} :
      n ∉ seen → Explores seen n seen₁ out₁ → ExploresAll seen₁ ss seen₂ out₂ →
        ExploresAll seen (some n :: ss) seen₂ (out₁ ++ out₂)

end

/-- An edge. -/
def Edge (a b : ν) : Prop := some b ∈ succs a

/-- What a search that has seen `seen` and then `seen'` has left. -/
structure Leaves (seen seen' out : List ν) : Prop where
  mem : ∀ m, m ∈ seen' ↔ m ∈ seen ∨ m ∈ out
  nodup : out.Nodup
  fresh : ∀ m ∈ out, m ∉ seen
  /-- No edge leads out of what has been left to something not seen. -/
  closed : ∀ m ∈ out, ∀ m', Edge succs m m' → m' ∈ seen'

variable {succs}

theorem Leaves.append {seen seen₁ seen₂ out₁ out₂ : List ν} (h₁ : Leaves succs seen seen₁ out₁)
    (h₂ : Leaves succs seen₁ seen₂ out₂) : Leaves succs seen seen₂ (out₁ ++ out₂) where
  mem m := by rw [h₂.mem, h₁.mem, List.mem_append, or_assoc]
  nodup := List.nodup_append.mpr ⟨h₁.nodup, h₂.nodup, fun a ha b hb hab =>
    h₂.fresh b hb ((h₁.mem b).mpr (.inr (hab ▸ ha)))⟩
  fresh m hm hseen := by
    rcases List.mem_append.mp hm with hm | hm
    · exact h₁.fresh m hm hseen
    · exact h₂.fresh m hm ((h₁.mem m).mpr (.inl hseen))
  closed m hm m' hedge := by
    rcases List.mem_append.mp hm with hm | hm
    · exact (h₂.mem m').mpr (.inl (h₁.closed m hm m' hedge))
    · exact h₂.closed m hm m' hedge

mutual

theorem Explores.leaves : ∀ {seen seen' out : List ν} {n : ν}, Explores succs seen n seen' out → n ∉ seen →
    Leaves succs seen seen' out
  | seen, seen', _, n, @Explores.mk _ _ _ _ out _ h, hn => by
    obtain ⟨hleaves, hsuccs⟩ := ExploresAll.leaves h
    have hnout : n ∉ out := fun hmem => hleaves.fresh n hmem List.mem_cons_self
    refine ⟨fun m => ?_, ?_, fun m hm hseen => ?_, fun m hm m' hedge => ?_⟩
    · rw [hleaves.mem, List.mem_cons, List.mem_append, List.mem_singleton]
      tauto
    · exact List.nodup_append.mpr ⟨hleaves.nodup, List.nodup_singleton n, fun a ha b hb hab => by
        rw [List.mem_singleton.mp hb] at hab
        exact hnout (hab ▸ ha)⟩
    · rcases List.mem_append.mp hm with hm | hm
      · exact hleaves.fresh m hm (List.mem_cons_of_mem n hseen)
      · exact hn (List.mem_singleton.mp hm ▸ hseen)
    · rcases List.mem_append.mp hm with hm | hm
      · exact hleaves.closed m hm m' hedge
      · exact hsuccs m' (List.mem_singleton.mp hm ▸ hedge)

/-- Every successor has been seen. -/
theorem ExploresAll.leaves : ∀ {seen seen' out : List ν} {ss : List (Option ν)}, ExploresAll succs seen ss seen' out →
    Leaves succs seen seen' out ∧ ∀ m, some m ∈ ss → m ∈ seen'
  | seen, _, _, _, .nil => ⟨⟨by simp, List.nodup_nil, nofun, nofun⟩, nofun⟩
  | _, _, _, _, .null h => by
    obtain ⟨hleaves, hsuccs⟩ := ExploresAll.leaves h
    exact ⟨hleaves, fun m hm => hsuccs m (by simpa using hm)⟩
  | _, _, _, _, .old hn h => by
    obtain ⟨hleaves, hsuccs⟩ := ExploresAll.leaves h
    refine ⟨hleaves, fun m hm => ?_⟩
    rcases List.mem_cons.mp hm with heq | hm
    · exact (hleaves.mem m).mpr (.inl (Option.some.inj heq ▸ hn))
    · exact hsuccs m hm
  | _, _, _, _, .fresh (n := n) hn h hs => by
    have hfirst := Explores.leaves h hn
    obtain ⟨hrest, hsuccs⟩ := ExploresAll.leaves hs
    refine ⟨hfirst.append hrest, fun m hm => ?_⟩
    rcases List.mem_cons.mp hm with heq | hm
    · rw [Option.some.inj heq, hrest.mem, hfirst.mem]
      cases h with
      | mk h => exact .inl (.inr (List.mem_append_right _ List.mem_cons_self))
    · exact hsuccs m hm

end

mutual

theorem Explores.reach : ∀ {seen seen' out : List ν} {n : ν}, Explores succs seen n seen' out →
    ∀ m ∈ out, Relation.ReflTransGen (Edge succs) n m
  | _, _, _, n, .mk h, m, hm => by
    rcases List.mem_append.mp hm with hm | hm
    · obtain ⟨b, hb, hreach⟩ := ExploresAll.reach h m hm
      exact .head hb hreach
    · rw [List.mem_singleton.mp hm]

theorem ExploresAll.reach : ∀ {seen seen' out : List ν} {ss : List (Option ν)}, ExploresAll succs seen ss seen' out →
    ∀ m ∈ out, ∃ b, some b ∈ ss ∧ Relation.ReflTransGen (Edge succs) b m
  | _, _, _, _, .nil, m, hm => by cases hm
  | _, _, _, _, .null h, m, hm => by
    obtain ⟨b, hb, hreach⟩ := ExploresAll.reach h m hm
    exact ⟨b, List.mem_cons_of_mem _ hb, hreach⟩
  | _, _, _, _, .old _ h, m, hm => by
    obtain ⟨b, hb, hreach⟩ := ExploresAll.reach h m hm
    exact ⟨b, List.mem_cons_of_mem _ hb, hreach⟩
  | _, _, _, _, .fresh _ h hs, m, hm => by
    rcases List.mem_append.mp hm with hm | hm
    · exact ⟨_, List.mem_cons_self, Explores.reach h m hm⟩
    · obtain ⟨b, hb, hreach⟩ := ExploresAll.reach hs m hm
      exact ⟨b, List.mem_cons_of_mem _ hb, hreach⟩

end

variable {root : ν} {seen post : List ν}

/-- No node is left twice. -/
theorem Explores.nodup (h : Explores succs [] root seen post) : post.Nodup := (h.leaves List.not_mem_nil).nodup

/-- The nodes left are those that can be reached. -/
theorem Explores.mem_iff (h : Explores succs [] root seen post) (m : ν) :
    m ∈ post ↔ Relation.ReflTransGen (Edge succs) root m := by
  refine ⟨h.reach m, fun hreach => ?_⟩
  have hleaves := h.leaves List.not_mem_nil
  have hseen : ∀ m, m ∈ seen ↔ m ∈ post := fun m => by simpa using hleaves.mem m
  induction hreach with
  | refl =>
    cases h with
    | mk h => exact List.mem_append_right _ List.mem_cons_self
  | tail _ hedge ih => exact (hseen _).mp (hleaves.closed _ ih _ hedge)

end Explores

/-! ## A search of a finite graph ends -/

section Exists

variable {succs : ν → List (Option ν)} [Finite ν]

/-- **Every search ends**, by induction on how many nodes have not been seen. -/
theorem exists_explores (succs : ν → List (Option ν)) {seen : List ν} {n : ν} (hn : n ∉ seen) :
    ∃ seen' out, Explores succs seen n seen' out := by
  classical
  have : Fintype ν := Fintype.ofFinite ν
  have unseen : ∀ (size : Nat) (seen : List ν) (n : ν), n ∉ seen → (Finset.univ.filter (· ∉ seen)).card ≤ size →
      ∃ seen' out, Explores succs seen n seen' out := by
    intro size
    induction size with
    | zero =>
      intro seen n hn hsize
      have hmem : n ∈ Finset.univ.filter (· ∉ seen) := Finset.mem_filter.mpr ⟨Finset.mem_univ n, hn⟩
      rw [Nat.le_zero, Finset.card_eq_zero] at hsize
      rw [hsize] at hmem
      exact absurd hmem (Finset.notMem_empty n)
    | succ size ih =>
      intro seen n hn hsize
      have hall : ∀ (ss : List (Option ν)) (seen₁ : List ν), (∀ m ∈ n :: seen, m ∈ seen₁) →
          ∃ seen' out, ExploresAll succs seen₁ ss seen' out := by
        intro ss
        induction ss with
        | nil => exact fun seen₁ _ => ⟨seen₁, [], .nil⟩
        | cons s ss ihs =>
          intro seen₁ hsub
          cases s with
          | none =>
            obtain ⟨seen', out, h⟩ := ihs seen₁ hsub
            exact ⟨seen', out, .null h⟩
          | some m =>
            by_cases hm : m ∈ seen₁
            · obtain ⟨seen', out, h⟩ := ihs seen₁ hsub
              exact ⟨seen', out, .old hm h⟩
            · have hless : (Finset.univ.filter (· ∉ seen₁)).card < (Finset.univ.filter (· ∉ seen)).card := by
                refine Finset.card_lt_card (Finset.ssubset_iff_subset_ne.mpr ⟨fun a ha => ?_, fun heq => ?_⟩)
                · rw [Finset.mem_filter] at ha ⊢
                  exact ⟨ha.1, fun hseen => ha.2 (hsub a (List.mem_cons_of_mem n hseen))⟩
                · have hmem : n ∈ Finset.univ.filter (· ∉ seen) := Finset.mem_filter.mpr ⟨Finset.mem_univ n, hn⟩
                  rw [← heq, Finset.mem_filter] at hmem
                  exact hmem.2 (hsub n List.mem_cons_self)
              obtain ⟨seen₂, out₁, hfirst⟩ := ih seen₁ m hm (by omega)
              have hgrown := hfirst.leaves hm
              obtain ⟨seen', out₂, hrest⟩ := ihs seen₂ fun a ha => (hgrown.mem a).mpr (.inl (hsub a ha))
              exact ⟨seen', out₁ ++ out₂, .fresh hm hfirst hrest⟩
      obtain ⟨seen', out, h⟩ := hall (succs n) (n :: seen) fun _ hm => hm
      exact ⟨seen', out ++ [n], .mk h⟩
  exact unseen _ seen n hn (le_refl _)

end Exists

/-! ## The search with a stack -/

/-- Frames, what has been seen and left, and what requests are made of. -/
structure Search (ν γ : Type*) where
  stack : List (ν × Nat)
  seen : List ν
  out : List ν
  res : γ

section Stack

variable [DecidableEq ν] (succs : ν → List (Option ν)) (ask : γ → Bool × γ)

/-- One turn. A request that is refused (`true`) ends the search. -/
def searchTurn (s : Search ν γ) : Search ν γ ⊕ (Option (List ν) × γ) :=
  match s.stack with
  | [] => .inr (some s.out, s.res)
  | (n, i) :: rest =>
    match (succs n)[i]? with
    | none =>
      match ask s.res with
      | (true, g) => .inr (none, g)
      | (false, g) => .inl { s with stack := rest, out := s.out ++ [n], res := g }
    | some none => .inl { s with stack := (n, i + 1) :: rest }
    | some (some m) =>
      if m ∈ s.seen then .inl { s with stack := (n, i + 1) :: rest }
      else
        match ask s.res with
        | (true, g) => .inr (none, g)
        | (false, g) =>
          match ask g with
          | (true, g) => .inr (none, g)
          | (false, g) => .inl { stack := (m, 0) :: (n, i + 1) :: rest, seen := m :: s.seen, out := s.out, res := g }

/-- The loop, as long as the fuel lasts. -/
def search (fuel : Nat) (s : Search ν γ) : Option (Option (List ν) × γ) :=
  loop (fun s => some (searchTurn succs ask s)) fuel s

/-- Requests, none of them refused. -/
def Granted : γ → γ → Prop := Relation.ReflTransGen fun a b => ask a = (false, b)

/-- Requests, the last of them refused. -/
def Refused (a b : γ) : Prop := ∃ g, Granted ask a g ∧ ask g = (true, b)

/-- After some turns the loop is where `s'` is. -/
def Follows (s s' : Search ν γ) : Prop := ∃ k, ∀ fuel, search succs ask (k + fuel) s = search succs ask fuel s'

/-- After some turns the loop has given up. -/
def GivesUp (s : Search ν γ) (g : γ) : Prop := ∃ k, ∀ fuel, search succs ask (k + fuel) s = some (none, g)

/-- The loop comes from `s` to what `next` makes of the requests granted, or gives up. -/
def Proceeds (s : Search ν γ) (next : γ → Search ν γ) : Prop :=
  (∃ g, Granted ask s.res g ∧ Follows succs ask s (next g)) ∨ ∃ g, Refused ask s.res g ∧ GivesUp succs ask s g

variable {succs ask}

theorem Follows.refl (s : Search ν γ) : Follows succs ask s s := ⟨0, fun fuel => by rw [Nat.zero_add]⟩

theorem Follows.trans {s s₁ s₂ : Search ν γ} (h : Follows succs ask s s₁) (h' : Follows succs ask s₁ s₂) :
    Follows succs ask s s₂ := by
  obtain ⟨k, hk⟩ := h
  obtain ⟨k', hk'⟩ := h'
  exact ⟨k + k', fun fuel => by rw [Nat.add_assoc, hk, hk']⟩

theorem Follows.givesUp {s s₁ : Search ν γ} {g : γ} (h : Follows succs ask s s₁) (h' : GivesUp succs ask s₁ g) :
    GivesUp succs ask s g := by
  obtain ⟨k, hk⟩ := h
  obtain ⟨k', hk'⟩ := h'
  exact ⟨k + k', fun fuel => by rw [Nat.add_assoc, hk, hk']⟩

theorem follows_of_turn {s s' : Search ν γ} (h : searchTurn succs ask s = .inl s') : Follows succs ask s s' :=
  ⟨1, fun fuel => by rw [Nat.add_comm, search, loop, h, Option.bind_some, search]⟩

theorem givesUp_of_turn {s : Search ν γ} {g : γ} (h : searchTurn succs ask s = .inr (none, g)) : GivesUp succs ask s g :=
  ⟨1, fun fuel => by rw [Nat.add_comm, search, loop, h, Option.bind_some]⟩

theorem Refused.of_granted {a b c : γ} (h : Granted ask a b) (h' : Refused ask b c) : Refused ask a c := by
  obtain ⟨g, hg, hrefused⟩ := h'
  exact ⟨g, h.trans hg, hrefused⟩

theorem Proceeds.bind {s : Search ν γ} {next next' : γ → Search ν γ} (h : Proceeds succs ask s next)
    (hres : ∀ g, (next g).res = g)
    (h' : ∀ g, Proceeds succs ask (next g) next') : Proceeds succs ask s next' := by
  rcases h with ⟨g, hgranted, hfollows⟩ | hgives
  · rcases h' g with ⟨g', hgranted', hfollows'⟩ | ⟨g', hrefused, hgives⟩
    · rw [hres] at hgranted'
      exact .inl ⟨g', hgranted.trans hgranted', hfollows.trans hfollows'⟩
    · rw [hres] at hrefused
      exact .inr ⟨g', .of_granted hgranted hrefused, hfollows.givesUp hgives⟩
  · exact .inr hgives

/-- A node with nothing left to look at is left. -/
theorem proceeds_leave (n : ν) (rest : List (ν × Nat)) (seen out : List ν) (g : γ) :
    Proceeds succs ask ⟨(n, (succs n).length) :: rest, seen, out, g⟩ fun g => ⟨rest, seen, out ++ [n], g⟩ := by
  have hnone : (succs n)[(succs n).length]? = none := List.getElem?_eq_none (le_refl _)
  cases hask : ask g with
  | mk refused g' =>
    cases refused with
    | true => exact .inr ⟨g', ⟨g, .refl, hask⟩, givesUp_of_turn (by simp only [searchTurn, hnone, hask])⟩
    | false => exact .inl ⟨g', .single hask, follows_of_turn (by simp only [searchTurn, hnone, hask])⟩

/-- A node that is new is entered. -/
theorem proceeds_enter {n m : ν} {i : Nat} (hm : (succs n)[i]? = some (some m)) (rest : List (ν × Nat))
    {seen : List ν} (hfresh : m ∉ seen) (out : List ν) (g : γ) :
    Proceeds succs ask ⟨(n, i) :: rest, seen, out, g⟩ fun g => ⟨(m, 0) :: (n, i + 1) :: rest, m :: seen, out, g⟩ := by
  cases hask : ask g with
  | mk refused g₁ =>
    cases refused with
    | true => exact .inr ⟨g₁, ⟨g, .refl, hask⟩, givesUp_of_turn (by simp only [searchTurn, hm, hfresh, if_false, hask])⟩
    | false =>
      cases hask' : ask g₁ with
      | mk refused g₂ =>
        cases refused with
        | true =>
          exact .inr ⟨g₂, ⟨g₁, .single hask, hask'⟩,
            givesUp_of_turn (by simp only [searchTurn, hm, hfresh, if_false, hask, hask'])⟩
        | false =>
          exact .inl ⟨g₂, .head hask (.single hask'),
            follows_of_turn (by simp only [searchTurn, hm, hfresh, if_false, hask, hask'])⟩

/-- A successor that is null or has been seen is passed over. -/
theorem proceeds_skip {n : ν} {i : Nat} {s : Option ν} (hs : (succs n)[i]? = some s) (rest : List (ν × Nat))
    {seen : List ν} (hold : ∀ m, s = some m → m ∈ seen) (out : List ν) (g : γ) :
    Proceeds succs ask ⟨(n, i) :: rest, seen, out, g⟩ fun g => ⟨(n, i + 1) :: rest, seen, out, g⟩ := by
  refine .inl ⟨g, .refl, follows_of_turn ?_⟩
  cases s with
  | none => simp only [searchTurn, hs]
  | some m => simp only [searchTurn, hs, hold m rfl, if_true]

theorem next_of_drop {α : Type*} {xs ys : List α} {i : Nat} {y : α} (h : xs.drop i = y :: ys) :
    xs[i]? = some y ∧ xs.drop (i + 1) = ys := by
  constructor
  · rw [← List.head?_drop, h, List.head?_cons]
  · rw [← List.tail_drop, h, List.tail_cons]

mutual

/-- **The stack does what the recursion does**, or gives up. -/
theorem proceeds_explores : ∀ {seen seen' out : List ν} {n : ν}, Explores succs seen n seen' out →
    ∀ (rest : List (ν × Nat)) (out₀ : List ν) (g : γ),
      Proceeds succs ask ⟨(n, 0) :: rest, n :: seen, out₀, g⟩ fun g => ⟨rest, seen', out₀ ++ out, g⟩
  | seen, seen', _, n, @Explores.mk _ _ _ _ out _ h, rest, out₀, g => by
    refine .bind (proceeds_exploresAll h n 0 rest out₀ g rfl (Nat.zero_add _)) (fun _ => rfl) fun g' => ?_
    have hleave : Proceeds succs ask _ _ := proceeds_leave n rest seen' (out₀ ++ out) g'
    rwa [List.append_assoc] at hleave

theorem proceeds_exploresAll : ∀ {seen seen' out : List ν} {ss : List (Option ν)}, ExploresAll succs seen ss seen' out →
    ∀ (n : ν) (i : Nat) (rest : List (ν × Nat)) (out₀ : List ν) (g : γ), (succs n).drop i = ss →
      i + ss.length = (succs n).length →
        Proceeds succs ask ⟨(n, i) :: rest, seen, out₀, g⟩
          fun g => ⟨(n, (succs n).length) :: rest, seen', out₀ ++ out, g⟩
  | seen, _, _, _, .nil, n, i, rest, out₀, g, _, hi => by
    obtain rfl : i = (succs n).length := hi
    rw [List.append_nil]
    exact .inl ⟨g, .refl, .refl _⟩
  | _, _, _, _, .null h, n, i, rest, out₀, g, hdrop, hi => by
    obtain ⟨hs, hdrop'⟩ := next_of_drop hdrop
    rw [List.length_cons] at hi
    exact .bind (proceeds_skip hs rest nofun out₀ g) (fun _ => rfl) fun g' =>
      proceeds_exploresAll h n (i + 1) rest out₀ g' hdrop' (by omega)
  | _, _, _, _, .old hm h, n, i, rest, out₀, g, hdrop, hi => by
    obtain ⟨hs, hdrop'⟩ := next_of_drop hdrop
    rw [List.length_cons] at hi
    exact .bind (proceeds_skip hs rest (fun m heq => Option.some.inj heq ▸ hm) out₀ g) (fun _ => rfl) fun g' =>
      proceeds_exploresAll h n (i + 1) rest out₀ g' hdrop' (by omega)
  | _, _, _, _, @ExploresAll.fresh _ _ _ _ _ out₁ out₂ _ _ hm h hs, n, i, rest, out₀, g, hdrop, hi => by
    obtain ⟨hsucc, hdrop'⟩ := next_of_drop hdrop
    rw [List.length_cons] at hi
    refine .bind (proceeds_enter hsucc rest hm out₀ g) (fun _ => rfl) fun g₁ => ?_
    refine .bind (proceeds_explores h ((n, i + 1) :: rest) out₀ g₁) (fun _ => rfl) fun g₂ => ?_
    rw [← List.append_assoc]
    exact proceeds_exploresAll hs n (i + 1) rest (out₀ ++ out₁) g₂ hdrop' (by omega)

end

/-- **The search from a root ends**: with the postorder of a recursive search, all its requests granted, or refused. -/
theorem search_settles [Finite ν] (succs : ν → List (Option ν)) (ask : γ → Bool × γ) (root : ν) (g : γ) :
    ∃ r, Settles (fun fuel => search succs ask fuel ⟨[(root, 0)], [root], [], g⟩) r ∧
      ((∃ seen post, Explores succs [] root seen post ∧ r.1 = some post ∧ Granted ask g r.2) ∨
        r.1 = none ∧ Refused ask g r.2) := by
  obtain ⟨seen, post, h⟩ := exists_explores succs (List.not_mem_nil (a := root))
  have hproceeds : Proceeds succs ask _ _ := proceeds_explores h [] [] g
  rcases hproceeds with ⟨g', hgranted, k, hk⟩ | ⟨g', hrefused, k, hk⟩
  · refine ⟨(some post, g'), ⟨k + 1, fun fuel hfuel => ?_⟩, .inl ⟨seen, post, h, rfl, hgranted⟩⟩
    obtain ⟨rest, rfl⟩ : ∃ rest, fuel = k + (rest + 1) := ⟨fuel - k - 1, by omega⟩
    exact (hk (rest + 1)).trans rfl
  · refine ⟨(none, g'), ⟨k, fun fuel hfuel => ?_⟩, .inr ⟨rfl, hrefused⟩⟩
    obtain ⟨rest, rfl⟩ : ∃ rest, fuel = k + rest := ⟨fuel - k, by omega⟩
    exact hk rest

end Stack

end Bbq.Lib
