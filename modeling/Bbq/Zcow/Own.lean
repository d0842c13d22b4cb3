import Mathlib.Data.List.Nodup
import Bbq.Zcow.Transient

/-!
# What a transient writes

Every write of a transient is to a node it owns, or to one the caller gave it a pointer to. `Kept id W S h h'`
is what that comes to for a heap: nodes of other owners and outside `W` are as they were, owners do not
change, new nodes are the transient's, and what reached no node of the owners `S` still does not. Each
function of the settling pass and each edit is shown to be `Kept` from a heap in which the transient's own
nodes reach none of `S` (`Tidy`).
-/

namespace Bbq.Zcow

/-- The nodes a pointer leads to. -/
inductive Reach (h : Heap) (a : Nat) : Nat → Prop
  | refl : Reach h a a
  | step {b k : Nat} {n : HeapNode} : Reach h a b → h[b]? = some n → k ∈ n.kids → Reach h a k

/-- Every child is on the heap. -/
def Closed (h : Heap) : Prop := ∀ n ∈ h, ∀ k ∈ n.kids, k < h.length

/-- The pointer leads to no node of the owners `S`. -/
def Avoids (S : Nat → Prop) (h : Heap) (a : Nat) : Prop := ∀ b n, Reach h a b → h[b]? = some n → ¬ S n.cell.owner

/-- A pointer to a node that leads to no node of `S`. -/
structure Near (S : Nat → Prop) (h : Heap) (a : Nat) : Prop where
  lt : a < h.length
  avoids : Avoids S h a

def Owned (id : Nat) (h : Heap) (a : Nat) : Prop := ∃ n, h[a]? = some n ∧ n.cell.owner = id

/-- A node `id` may write to. -/
structure Mine (id : Nat) (W S : Nat → Prop) (h : Heap) (p : Nat) : Prop where
  near : Near S h p
  owner : ∀ n : HeapNode, h[p]? = some n → n.cell.owner = id ∨ W p

/-- What `id` owns leads to no node of `S`. -/
structure Tidy (id : Nat) (S : Nat → Prop) (h : Heap) : Prop where
  closed : Closed h
  clear : ∀ a, Owned id h a → Avoids S h a
  notMem : ¬ S id

/-- What `id` did to a heap. -/
structure Kept (id : Nat) (W S : Nat → Prop) (h h' : Heap) : Prop where
  tidy : Tidy id S h'
  grows : h.length ≤ h'.length
  same : ∀ (a : Nat) (n : HeapNode), h[a]? = some n → n.cell.owner ≠ id → ¬ W a → h'[a]? = some n
  owner : ∀ (a : Nat) (n : HeapNode), h[a]? = some n → ∃ n' : HeapNode, h'[a]? = some n' ∧ n'.cell.owner = n.cell.owner
  fresh : ∀ (a : Nat) (n' : HeapNode), h.length ≤ a → h'[a]? = some n' → n'.cell.owner = id
  avoids : ∀ a, Avoids S h a → Avoids S h' a

section Reach

variable {h h' : Heap} {S : Nat → Prop} {a b k : Nat} {n : HeapNode}

theorem Reach.trans {c : Nat} (hab : Reach h a b) (hbc : Reach h b c) : Reach h a c := by
  induction hbc with
  | refl => exact hab
  | step _ hn hk ih => exact ih.step hn hk

theorem Reach.head (hn : h[a]? = some n) (hk : k ∈ n.kids) (hkb : Reach h k b) : Reach h a b :=
  (Reach.refl.step hn hk).trans hkb

theorem Avoids.kid (ha : Avoids S h a) (hn : h[a]? = some n) (hk : k ∈ n.kids) : Avoids S h k :=
  fun _ _ hb => ha _ _ (hb.head hn hk)

theorem Near.kid (hc : Closed h) (ha : Near S h a) (hn : h[a]? = some n) (hk : k ∈ n.kids) : Near S h k :=
  ⟨hc n (List.mem_of_getElem? hn) k hk, ha.avoids.kid hn hk⟩

/-- A set of nodes outside `S` that contains the children of its members. -/
theorem avoids_of_closed (P : Nat → Prop)
    (hP : ∀ b n, P b → h[b]? = some n → ¬ S n.cell.owner ∧ ∀ k ∈ n.kids, P k) (ha : P a) : Avoids S h a := by
  intro b n hb hn
  have hPb : P b := by
    induction hb generalizing n with
    | refl => exact ha
    | step _ hm hk ih => exact (hP _ _ (ih _ hm) hm).2 _ hk
  exact (hP b n hPb hn).1

end Reach

section Kept

variable {id : Nat} {W S : Nat → Prop} {h h' h'' : Heap} {a p : Nat} {n : HeapNode}

theorem Kept.refl (ht : Tidy id S h) : Kept id W S h h :=
  ⟨ht, Nat.le_refl _, fun _ _ hn _ _ => hn, fun _ n hn => ⟨n, hn, rfl⟩,
    fun _ _ hle hn => absurd (List.getElem?_eq_some_iff.1 hn).1 (Nat.not_lt.2 hle), fun _ ha => ha⟩

theorem Kept.trans (h₁ : Kept id W S h h') (h₂ : Kept id W S h' h'') : Kept id W S h h'' := by
  refine ⟨h₂.tidy, Nat.le_trans h₁.grows h₂.grows, fun a n hn hne hw => h₂.same a n (h₁.same a n hn hne hw) hne hw,
    fun a n hn => ?_, fun a n hle hn => ?_, fun a ha => h₂.avoids a (h₁.avoids a ha)⟩
  · obtain ⟨n', hn', ho'⟩ := h₁.owner a n hn
    obtain ⟨n'', hn'', ho''⟩ := h₂.owner a n' hn'
    exact ⟨n'', hn'', ho''.trans ho'⟩
  · by_cases hlt : a < h'.length
    · have hn' := List.getElem?_eq_getElem hlt
      obtain ⟨m, hm, ho⟩ := h₂.owner a _ hn'
      rw [hn] at hm
      cases hm
      exact ho.trans (h₁.fresh a _ hle hn')
    · exact h₂.fresh a n (Nat.not_lt.1 hlt) hn

theorem Kept.near (hk : Kept id W S h h') (ha : Near S h a) : Near S h' a :=
  ⟨Nat.lt_of_lt_of_le ha.lt hk.grows, hk.avoids a ha.avoids⟩

theorem Kept.owned (hk : Kept id W S h h') (ha : Owned id h a) : Owned id h' a := by
  obtain ⟨n, hn, ho⟩ := ha
  obtain ⟨n', hn', ho'⟩ := hk.owner a n hn
  exact ⟨n', hn', ho'.trans ho⟩

theorem Owned.near (ht : Tidy id S h) (ha : Owned id h a) : Near S h a := by
  have hclear := ht.clear a ha
  obtain ⟨n, hn, -⟩ := ha
  exact ⟨(List.getElem?_eq_some_iff.1 hn).1, hclear⟩

theorem Owned.mine (ht : Tidy id S h) (ha : Owned id h a) : Mine id W S h a := by
  refine ⟨ha.near ht, fun m hm => .inl ?_⟩
  obtain ⟨n, hn, ho⟩ := ha
  rw [hn] at hm
  cases hm
  exact ho

theorem Kept.mine (hk : Kept id W S h h') (ha : Mine id W S h a) : Mine id W S h' a := by
  refine ⟨hk.near ha.near, fun m hm => ?_⟩
  obtain ⟨n, hn⟩ : ∃ n, h[a]? = some n := ⟨_, List.getElem?_eq_getElem ha.near.lt⟩
  obtain ⟨n', hn', ho⟩ := hk.owner a n hn
  rw [hm] at hn'
  cases hn'
  exact ho ▸ ha.owner n hn

/-- Writing on a node `id` may write to, with children that are near. -/
theorem kept_modify (ht : Tidy id S h) (hp : Mine id W S h p) (f : HeapNode → HeapNode)
    (howner : ∀ n, (f n).cell.owner = n.cell.owner) (hkids : ∀ n, h[p]? = some n → ∀ k ∈ (f n).kids, Near S h k) :
    Kept id W S h (h.modify p f) := by
  have hget : ∀ a n', (h.modify p f)[a]? = some n' → ∃ n, h[a]? = some n ∧ n' = if p = a then f n else n := by
    intro a n' hn'
    rw [List.getElem?_modify] at hn'
    obtain ⟨n, hn, rfl⟩ := Option.map_eq_some_iff.1 hn'
    exact ⟨n, hn, rfl⟩
  have havoids : ∀ a, Avoids S h a → Avoids S (h.modify p f) a := by
    intro a ha
    refine avoids_of_closed (Avoids S h) (fun b n' hb hn' => ?_) ha
    obtain ⟨n, hn, rfl⟩ := hget b n' hn'
    by_cases hpb : p = b
    · subst hpb
      rw [if_pos rfl]
      exact ⟨howner n ▸ hb p n .refl hn, fun k hk => (hkids n hn k hk).avoids⟩
    · rw [if_neg hpb]
      exact ⟨hb b n .refl hn, fun k hk => hb.kid hn hk⟩
  refine ⟨⟨?_, fun a ha => ?_, ht.notMem⟩, by simp, fun a n hn hne hw => ?_, fun a n hn => ?_, fun a n' hle hn' => ?_,
    havoids⟩
  · intro n' hn' k hk
    obtain ⟨a, ha⟩ := List.mem_iff_getElem?.1 hn'
    obtain ⟨n, hn, rfl⟩ := hget a n' ha
    rw [List.length_modify]
    by_cases hpa : p = a
    · subst hpa
      rw [if_pos rfl] at hk
      exact (hkids n hn k hk).lt
    · rw [if_neg hpa] at hk
      exact ht.closed n (List.mem_of_getElem? hn) k hk
  · obtain ⟨n', hn', ho⟩ := ha
    obtain ⟨n, hn, rfl⟩ := hget a n' hn'
    refine havoids a (ht.clear a ⟨n, hn, ?_⟩)
    rw [← ho]
    split
    · exact (howner n).symm
    · rfl
  · rw [List.getElem?_modify, hn]
    have hpa : p ≠ a := by
      rintro rfl
      exact (hp.owner n hn).elim hne hw
    simp [hpa]
  · refine ⟨_, by rw [List.getElem?_modify, hn]; rfl, ?_⟩
    split
    · exact howner n
    · rfl
  · obtain ⟨n, hn, -⟩ := hget a n' hn'
    exact absurd (List.getElem?_eq_some_iff.1 hn).1 (Nat.not_lt.2 hle)

/-- A new node of `id`'s, over children that are near. -/
theorem kept_alloc (ht : Tidy id S h) (howner : n.cell.owner = id) (hkids : ∀ k ∈ n.kids, Near S h k) :
    Kept id W S h (h ++ [n]) := by
  have hget : ∀ a m, (h ++ [n])[a]? = some m → h[a]? = some m ∨ a = h.length ∧ m = n := by
    intro a m hm
    by_cases hlt : a < h.length
    · rw [List.getElem?_append_left hlt] at hm
      exact .inl hm
    · have ha : a = h.length := by
        have := (List.getElem?_eq_some_iff.1 hm).1
        rw [List.length_append, List.length_singleton] at this
        omega
      subst ha
      rw [List.getElem?_append_right (Nat.le_refl _), Nat.sub_self] at hm
      exact .inr ⟨rfl, (Option.some.inj hm).symm⟩
  have hreach : ∀ a, Avoids S h a ∨ a = h.length → Avoids S (h ++ [n]) a := by
    intro a ha
    refine avoids_of_closed (fun b => Avoids S h b ∨ b = h.length) (fun b m hb hm => ?_) ha
    rcases hget b m hm with hm | ⟨rfl, rfl⟩
    · have hb : Avoids S h b := hb.resolve_right fun heq => by
        rw [heq] at hm
        exact absurd (List.getElem?_eq_some_iff.1 hm).1 (Nat.lt_irrefl _)
      exact ⟨hb b m .refl hm, fun k hk => .inl (hb.kid hm hk)⟩
    · exact ⟨howner ▸ ht.notMem, fun k hk => .inl (hkids k hk).avoids⟩
  refine ⟨⟨?_, fun a ha => ?_, ht.notMem⟩, by simp, fun a m hm _ _ => ?_, fun a m hm => ?_, fun a m hle hm => ?_,
    fun a ha => hreach a (.inl ha)⟩
  · intro m hm k hk
    rw [List.length_append, List.length_singleton]
    rcases List.mem_append.1 hm with hm | hm
    · have := ht.closed m hm k hk
      omega
    · obtain rfl := List.mem_singleton.1 hm
      have := (hkids k hk).lt
      omega
  · obtain ⟨m, hm, ho⟩ := ha
    rcases hget a m hm with hm | ⟨rfl, -⟩
    · exact hreach a (.inl (ht.clear a ⟨m, hm, ho⟩))
    · exact hreach _ (.inr rfl)
  · rw [List.getElem?_append_left (List.getElem?_eq_some_iff.1 hm).1, hm]
  · exact ⟨m, by rw [List.getElem?_append_left (List.getElem?_eq_some_iff.1 hm).1, hm], rfl⟩
  · rcases hget a m hm with hm | ⟨-, rfl⟩
    · exact absurd (List.getElem?_eq_some_iff.1 hm).1 (Nat.not_lt.2 hle)
    · exact howner

/-! ## Owning -/

/-- A write on a cell. -/
theorem kept_modifyCell (ht : Tidy id S h) (hp : Mine id W S h p) {f : Cell → Cell}
    (hf : ∀ c, (f c).owner = c.owner) : Kept id W S h (h.modifyCell p f) :=
  kept_modify ht hp _ (fun n => hf n.cell) fun _ hn _ hk => hp.near.kid ht.closed hn hk

/-- A write on a child vector. -/
theorem kept_modifyKids (ht : Tidy id S h) (hp : Mine id W S h p) {f : List Nat → List Nat}
    (hf : ∀ n, h[p]? = some n → ∀ k ∈ f n.kids, k ∈ n.kids ∨ Near S h k) : Kept id W S h (h.modifyKids p f) := by
  refine kept_modify ht hp _ (fun _ => rfl) fun n hn k hk => ?_
  rcases hf n hn k hk with hk | hk
  · exact hp.near.kid ht.closed hn hk
  · exact hk

theorem kept_own (ht : Tidy id S h) (ha : Near S h a) :
    Kept id W S h (h.own id a).1 ∧ Owned id (h.own id a).1 (h.own id a).2 := by
  obtain ⟨n, hn⟩ : ∃ n, h[a]? = some n := ⟨_, List.getElem?_eq_getElem ha.lt⟩
  unfold Heap.own
  rw [hn]
  dsimp only
  by_cases ho : n.cell.owner = id
  · rw [if_pos ho]
    exact ⟨.refl ht, _, hn, ho⟩
  · rw [if_neg ho]
    refine ⟨kept_alloc ht rfl fun k hk => ha.kid ht.closed hn hk, { n with cell := { n.cell with owner := id } }, ?_, rfl⟩
    rw [List.getElem?_append_right (Nat.le_refl _), Nat.sub_self]
    rfl

theorem kept_ownKid (ht : Tidy id S h) (hp : Mine id W S h p) {i c : Nat} (he : h.ownKid id p i = some (h', c)) :
    Kept id W S h h' ∧ Owned id h' c := by
  obtain ⟨n, hn⟩ : ∃ n, h[p]? = some n := ⟨_, List.getElem?_eq_getElem hp.near.lt⟩
  unfold Heap.ownKid at he
  rw [hn] at he
  dsimp only at he
  cases hk : n.kids[i]? with
  | none => simp [hk] at he
  | some a =>
    simp only [hk, Option.some.injEq, Prod.mk.injEq] at he
    obtain ⟨rfl, rfl⟩ := he
    have hnear := hp.near.kid ht.closed hn (List.mem_of_getElem? hk)
    obtain ⟨hkept, howned⟩ := kept_own (W := W) ht hnear
    have hset := kept_modifyKids hkept.tidy (hkept.mine hp) (f := fun ks => ks.set i (h.own id a).2)
      fun m _ k hk => (List.mem_or_eq_of_mem_set hk).imp_right fun (e : k = (h.own id a).2) => e ▸ howned.near hkept.tidy
    exact ⟨hkept.trans hset, hset.owned howned⟩

theorem kept_writeKid (ht : Tidy id S h) (hp : Mine id W S h p) (i : Nat) {f : Cell → Cell}
    (hf : ∀ c, (f c).owner = c.owner) : Kept id W S h (h.writeKid id p i f) := by
  unfold Heap.writeKid
  cases he : h.ownKid id p i with
  | none => exact .refl ht
  | some r =>
    obtain ⟨hkept, howned⟩ := kept_ownKid ht hp he
    exact hkept.trans (kept_modifyCell hkept.tidy (howned.mine hkept.tidy) hf)

/-! ## Settling -/

theorem findSlot_mem {scope : List Nat} {name : String} {slot : Nat × Nat} (he : h.findSlot scope name = some slot) :
    slot.1 ∈ scope := by
  obtain ⟨holder, hmem, hf⟩ := List.exists_of_findSome?_eq_some he
  obtain ⟨i, -, rfl⟩ := Option.map_eq_some_iff.1 hf
  exact hmem

theorem kept_resolve (path : List String) {scope : List Nat} (ht : Tidy id S h) (hscope : ∀ a ∈ scope, Owned id h a) :
    Kept id W S h (h.resolve id scope path).1 ∧
      (∀ slot, (h.resolve id scope path).2.1 = some slot → Owned id (h.resolve id scope path).1 slot.1) ∧
      ∀ a ∈ (h.resolve id scope path).2.2, Owned id (h.resolve id scope path).1 a := by
  induction path generalizing h scope with
  | nil => exact ⟨.refl ht, (fun _ he => nomatch he), (fun _ ha => nomatch ha)⟩
  | cons head rest ih =>
    cases rest with
    | nil =>
      refine ⟨.refl ht, fun slot he => ?_, (fun _ ha => nomatch ha)⟩
      simp only [Heap.resolve] at he
      split at he
      · cases he
      · exact hscope _ (findSlot_mem he)
    | cons next rest =>
      have hnone : Kept id W S h h ∧ (∀ slot, (none : Option (Nat × Nat)) = some slot → Owned id h slot.1) ∧
          ∀ a ∈ ([] : List Nat), Owned id h a := ⟨.refl ht, (fun _ he => nomatch he), (fun _ ha => nomatch ha)⟩
      unfold Heap.resolve
      cases hslot : h.findSlot scope head with
      | none => exact hnone
      | some slot =>
        dsimp only
        cases hown : h.ownKid id slot.1 slot.2 with
        | none => exact hnone
        | some r =>
          obtain ⟨hkept, howned⟩ := kept_ownKid (W := W) ht ((hscope _ (findSlot_mem hslot)).mine ht) hown
          have hinner : ∀ a ∈ [r.2], Owned id r.1 a := fun a ha => by
            rw [List.mem_singleton.1 ha]
            exact howned
          obtain ⟨hrest, hres, hchain⟩ := ih hkept.tidy hinner
          refine ⟨hkept.trans hrest, hres, fun a ha => ?_⟩
          rcases List.mem_cons.1 ha with rfl | ha
          · exact hrest.owned howned
          · exact hchain a ha

theorem kept_setDerived (ht : Tidy id S h) {slot : Nat × Nat} (hp : Owned id h slot.1) (src : Source) (want : Int) :
    Kept id W S h (h.setDerived id src slot want).1 := by
  unfold Heap.setDerived
  split
  · exact .refl ht
  · split
    · exact .refl ht
    · exact kept_writeKid ht (hp.mine ht) _ fun _ => rfl

theorem kept_restoreIfUnchanged (ht : Tidy id S h) (hp : Owned id h p) (src : Source) (i : Nat) :
    Kept id W S h (h.restoreIfUnchanged id src p i) := by
  unfold Heap.restoreIfUnchanged
  split
  · exact .refl ht
  · split
    · refine kept_writeKid ht (hp.mine ht) _ fun c => ?_
      split <;> rfl
    · exact .refl ht

theorem kept_unparse (chain : List Nat) (ht : Tidy id S h) (hchain : ∀ a ∈ chain, Owned id h a) :
    Kept id W S h (chain.foldl (fun h a => h.modifyCell a fun c => { c with parsed := false }) h) := by
  induction chain generalizing h with
  | nil => exact .refl ht
  | cons a chain ih =>
    have hone : Kept id W S h (h.modifyCell a fun c => { c with parsed := false }) :=
      kept_modifyCell ht ((hchain a List.mem_cons_self).mine ht) fun _ => rfl
    exact hone.trans (ih hone.tidy fun b hb => hone.owned (hchain b (List.mem_cons_of_mem _ hb)))

theorem kept_settleDerived (ht : Tidy id S h) (src : Source) (hn : Owned id h p) {scope : List Nat}
    (hscope : ∀ a ∈ scope, Owned id h a) : Kept id W S h (h.settleDerived id src p scope).1 := by
  unfold Heap.settleDerived
  split
  · exact .refl ht
  · rename_i node hnode
    cases node.cell.derives with
    | nothing => exact .refl ht
    | hasCount =>
      obtain ⟨hkept, hslot, hchain⟩ := kept_resolve (W := W) ((node.cell.determines.getD "").splitOn ".") ht hscope
      dsimp only
      generalize h.resolve id scope ((node.cell.determines.getD "").splitOn ".") = r at *
      obtain ⟨h₁, slot, chain⟩ := r
      cases slot with
      | none => exact hkept
      | some slot =>
        have hset := kept_setDerived (W := W) hkept.tidy (hslot slot rfl) src node.kids.length
        dsimp only at hset ⊢
        split
        · exact hkept.trans (hset.trans (kept_unparse chain hset.tidy fun a ha => hset.owned (hchain a ha)))
        · exact hkept.trans hset
    | hasRestSize =>
      dsimp only
      split
      · exact .refl ht
      · split
        · exact .refl ht
        · exact .refl ht
        · exact kept_setDerived ht hn src _

theorem kept_turn (ht : Tidy id S h) (src : Source) {frame : Heap.Frame} {rest : List Heap.Frame}
    (hstack : ∀ f ∈ frame :: rest, Owned id h f.node) :
    Kept id W S h (h.turn id src frame rest).1 ∧
      ∀ f ∈ (h.turn id src frame rest).2.1, Owned id (h.turn id src frame rest).1 f.node := by
  have hframe := hstack frame List.mem_cons_self
  have hrest : ∀ f ∈ rest, Owned id h f.node := fun f hf => hstack f (List.mem_cons_of_mem _ hf)
  have hnext : ∀ f ∈ { frame with kid := frame.kid + 1 } :: rest, Owned id h f.node := fun f hf => by
    rcases List.mem_cons.1 hf with rfl | hf
    · exact hframe
    · exact hrest f hf
  unfold Heap.turn
  split
  · have hscope : ∀ a ∈ frame.node :: rest.map Heap.Frame.node, Owned id h a := fun a ha => by
      rcases List.mem_cons.1 ha with rfl | ha
      · exact hframe
      · obtain ⟨f, hf, rfl⟩ := List.mem_map.1 ha
        exact hrest f hf
    have hkept := kept_settleDerived (W := W) ht src hframe hscope
    exact ⟨hkept, fun f hf => hkept.owned (hrest f hf)⟩
  · dsimp only
    split
    · exact ⟨.refl ht, hnext⟩
    · split
      · exact ⟨.refl ht, hnext⟩
      · split
        · split
          · exact ⟨.refl ht, hnext⟩
          · rename_i r hown
            obtain ⟨hkept, howned⟩ := kept_ownKid (W := W) ht (hframe.mine ht) hown
            refine ⟨hkept, fun f hf => ?_⟩
            rcases List.mem_cons.1 hf with rfl | hf
            · exact howned
            · exact hkept.owned (hnext f hf)
        · have hkept := kept_restoreIfUnchanged (W := W) ht hframe src frame.kid
          exact ⟨hkept, fun f hf => hkept.owned (hnext f hf)⟩

/-- **Run lemma** of the settling loop. -/
theorem kept_turns (src : Source) (fuel : Nat) {stack : List Heap.Frame} (ht : Tidy id S h)
    (hstack : ∀ f ∈ stack, Owned id h f.node) : Kept id W S h (Heap.turns id src fuel h stack).1 := by
  induction fuel generalizing h stack with
  | zero => cases stack <;> exact .refl ht
  | succ fuel ih =>
    cases stack with
    | nil => exact .refl ht
    | cons frame rest =>
      obtain ⟨hkept, hstack'⟩ := kept_turn (W := W) ht src hstack
      unfold Heap.turns
      generalize h.turn id src frame rest = r at *
      obtain ⟨h₁, stack, ending⟩ := r
      cases ending with
      | done => exact hkept.trans (ih hkept.tidy hstack')
      | threw e => exact hkept
      | unfinished => exact hkept

/-- **Settling** writes on nodes of the transient's only, and leaves it a root that is near. -/
theorem kept_reconcile (ht : Tidy id S h) (src : Source) (fuel : Nat) {root : Option Nat}
    (hroot : ∀ r, root = some r → Near S h r) :
    Kept id W S h (h.reconcile id src fuel root).1 ∧
      ∀ r, (h.reconcile id src fuel root).2.1 = some r → Near S (h.reconcile id src fuel root).1 r := by
  cases root with
  | none => exact ⟨.refl ht, (fun _ he => nomatch he)⟩
  | some r =>
    have hr := hroot r rfl
    unfold Heap.reconcile
    dsimp only
    split
    · exact ⟨.refl ht, hroot⟩
    · split
      · exact ⟨.refl ht, hroot⟩
      · obtain ⟨hkept, howned⟩ := kept_own (W := W) ht hr
        have hstack : ∀ f ∈ [(⟨(h.own id r).2, 0⟩ : Heap.Frame)], Owned id (h.own id r).1 f.node := fun f hf => by
          rw [List.mem_singleton.1 hf]
          exact howned
        have hturns := kept_turns (W := W) src fuel hkept.tidy hstack
        refine ⟨hkept.trans hturns, fun r' he => ?_⟩
        obtain rfl : (h.own id r).2 = r' := Option.some.inj he
        exact hturns.near (howned.near hkept.tidy)

/-! ## Paths -/

theorem kept_descend (path : List PathStep) (ht : Tidy id S h) (ha : Owned id h a) :
    Kept id W S h (World.descend id h a path).1 := by
  induction path generalizing h a with
  | nil => exact .refl ht
  | cons s path ih =>
    unfold World.descend
    split
    · exact .refl ht
    · split
      · exact .refl ht
      · rename_i hown
        obtain ⟨hkept, howned⟩ := kept_ownKid (W := W) ht (ha.mine ht) hown
        have hcell := kept_modifyCell (W := W) hkept.tidy (howned.mine hkept.tidy) (f := World.unparse) fun _ => rfl
        exact (hkept.trans hcell).trans (ih hcell.tidy (hcell.owned howned))

end Kept

end Bbq.Zcow
