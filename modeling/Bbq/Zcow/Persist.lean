import Bbq.Zcow.Frozen

/-!
# Documents persist

No operation writes a node that a document leads to, as long as the caller hands the pointers of one
version to that version only (`Clean`). The invariant is `Inv`: what a document leads to is owned by no live
transient, and what a live transient leads to, from its root or from a node it owns, is owned by no other one.

A pointer into a document can be handed to a write, and nothing on the way clones:

* `append` of a subtree that exists returns the subtree's root. Its comment says that the subtree arrives owned by
  nobody and that the first write down into it clones; the setters, `splice`, `append` and `own_child`
  write to the node they are given, whoever owns it.
* A pointer a transient handed out is still there after `commit`, when a document leads to it.
-/

namespace Bbq.Zcow

namespace World

/-- The transients not committed yet. -/
def live (w : World) (i : Nat) : Prop := i ≠ 0 ∧ i ∈ w.transients.map Transient.id

/-- The transients not committed yet, but for one. -/
def others (w : World) (id i : Nat) : Prop := w.live i ∧ i ≠ id

/-- What holds between any two operations. -/
structure Inv (w : World) : Prop where
  closed : Closed w.heap
  named : ∀ n ∈ w.heap, n.cell.owner < w.nextId
  positive : 0 < w.nextId
  ids : ∀ tr ∈ w.transients, tr.id < w.nextId
  apart : ∀ (i j : Nat) (tr tr' : Transient), w.transients[i]? = some tr → w.transients[j]? = some tr' →
    tr.id ≠ 0 → tr.id = tr'.id → i = j
  documents : ∀ d ∈ w.documents, ∀ r, d.root = some r → Near w.live w.heap r
  roots : ∀ tr ∈ w.transients, tr.id ≠ 0 → ∀ r, tr.root = some r → Near (w.others tr.id) w.heap r
  clear : ∀ id, w.live id → ∀ a, Owned id w.heap a → Avoids (w.others id) w.heap a

/-- No document leads to the node. -/
def Unshared (w : World) (p : Nat) : Prop := ∀ d ∈ w.documents, ∀ r, d.root = some r → ¬ Reach w.heap r p

/-- Nothing but the transient `id` leads to the node, and it leads to nothing another one owns. -/
structure Alone (w : World) (id p : Nat) : Prop where
  unshared : w.Unshared p
  roots : ∀ tr ∈ w.transients, w.others id tr.id → ∀ r, tr.root = some r → ¬ Reach w.heap r p
  owned : ∀ i, w.others id i → ∀ a, Owned i w.heap a → ¬ Reach w.heap a p
  avoids : Avoids (w.others id) w.heap p

/-- What an operation does to the versions there are. -/
structure Persists (w w' : World) : Prop where
  inv : Inv w'
  grows : w.heap.length ≤ w'.heap.length
  documents : ∀ (i : Nat) (d : Document), w.documents[i]? = some d → w'.documents[i]? = some d
  frozen : ∀ d ∈ w.documents, ∀ r, d.root = some r → Frozen w.heap w'.heap r

section Persists

variable {w w' w'' : World} {t p : Nat} {tr : Transient} {h' : Heap}

theorem Persists.refl (hi : Inv w) : Persists w w :=
  ⟨hi, Nat.le_refl _, fun _ _ hd => hd, fun _ _ _ _ _ _ _ hn => hn⟩

theorem Persists.trans (hi : Inv w) (h₁ : Persists w w') (h₂ : Persists w' w'') : Persists w w'' := by
  refine ⟨h₂.inv, Nat.le_trans h₁.grows h₂.grows, fun i d hd => h₂.documents i d (h₁.documents i d hd),
    fun d hd r hr => ?_⟩
  obtain ⟨i, hi'⟩ := List.mem_iff_getElem?.1 hd
  have hd' := List.mem_of_getElem? (h₁.documents i d hi')
  exact (h₁.frozen d hd r hr).trans hi.closed (hi.documents d hd r hr).lt (h₂.frozen d hd' r hr)

theorem Inv.tidy (hi : Inv w) (ht : w.transients[t]? = some tr) (hid : tr.id ≠ 0) :
    Tidy tr.id (w.others tr.id) w.heap :=
  ⟨hi.closed, hi.clear tr.id ⟨hid, List.mem_map_of_mem (List.mem_of_getElem? ht)⟩, fun hs => hs.2 rfl⟩

/-- A node a transient owns is alone. -/
theorem alone_of_owned (hi : Inv w) (ht : w.transients[t]? = some tr) (hid : tr.id ≠ 0) (hp : Owned tr.id w.heap p) :
    w.Alone tr.id p := by
  have hlive : w.live tr.id := ⟨hid, List.mem_map_of_mem (List.mem_of_getElem? ht)⟩
  have havoids := hi.clear tr.id hlive p hp
  obtain ⟨n, hn, ho⟩ := hp
  refine ⟨fun d hd r hr hreach => ?_, fun tr' htr' hother r hr hreach => ?_, fun i hother a ha hreach => ?_, havoids⟩
  · exact (hi.documents d hd r hr).avoids p n hreach hn (ho ▸ hlive)
  · exact (hi.roots tr' htr' hother.1.1 r hr).avoids p n hreach hn (ho ▸ ⟨hlive, hother.2.symm⟩)
  · exact hi.clear i hother.1 a ha p n hreach hn (ho ▸ ⟨hlive, hother.2.symm⟩)

/-! ## Edits -/

/-- A transient's new root. -/
theorem getElem?_setRoot {root : Option Nat} {j : Nat} {tr' : Transient}
    (htr' : (w.setRoot t root).transients[j]? = some tr') :
    ∃ tr, w.transients[j]? = some tr ∧ tr'.id = tr.id ∧ tr'.root = if t = j then root else tr.root := by
  unfold setRoot at htr'
  rw [List.getElem?_modify] at htr'
  obtain ⟨tr, htr, rfl⟩ := Option.map_eq_some_iff.1 htr'
  refine ⟨tr, htr, ?_⟩
  split <;> exact ⟨rfl, rfl⟩

theorem ids_setRoot (root : Option Nat) : (w.setRoot t root).transients.map Transient.id = w.transients.map Transient.id := by
  refine List.ext_getElem? fun j => ?_
  rw [List.getElem?_map, List.getElem?_map, setRoot, List.getElem?_modify]
  cases w.transients[j]? with
  | none => rfl
  | some tr => by_cases hj : t = j <;> simp [hj]

/-- What a transient's edit did, when it wrote on what it owns and on nodes that are alone. -/
theorem persists_kept {W : Nat → Prop} (hi : Inv w) (ht : w.transients[t]? = some tr) (hid : tr.id ≠ 0)
    (hk : Kept tr.id W (w.others tr.id) w.heap h') (hW : ∀ p, W p → w.Alone tr.id p) {root : Option Nat}
    (hroot : ∀ r, root = some r → Near (w.others tr.id) h' r) : Persists w ((w.setHeap h').setRoot t root) := by
  have hmem := List.mem_of_getElem? ht
  have hlive : w.live tr.id := ⟨hid, List.mem_map_of_mem hmem⟩
  have hlives : ((w.setHeap h').setRoot t root).live = w.live := by
    funext i
    unfold live
    rw [ids_setRoot]
    rfl
  have hothers : ((w.setHeap h').setRoot t root).others = w.others := by
    funext id i
    unfold others
    rw [hlives]
  have hfrozen : ∀ d ∈ w.documents, ∀ r, d.root = some r → Frozen w.heap h' r := fun d hd r hr b n hb hn =>
    hk.same b n hn (fun ho => (hi.documents d hd r hr).avoids b n hb hn (ho ▸ hlive))
      fun hw => (hW b hw).unshared d hd r hr hb
  refine ⟨⟨hk.tidy.closed, fun n hn => ?_, hi.positive, fun tr' htr' => ?_, fun i j tr₁ tr₂ h₁ h₂ hne heq => ?_,
    fun d hd r hr => ?_, fun tr' htr' hne r hr => ?_, fun i hlive' a ha => ?_⟩, hk.grows, fun _ _ hd => hd, hfrozen⟩
  · obtain ⟨a, ha⟩ := List.mem_iff_getElem?.1 hn
    by_cases hlt : a < w.heap.length
    · have hget := List.getElem?_eq_getElem hlt
      obtain ⟨n', hn', ho⟩ := hk.owner a _ hget
      rw [show h'[a]? = some n from ha] at hn'
      cases hn'
      rw [ho]
      exact hi.named _ (List.mem_of_getElem? hget)
    · rw [hk.fresh a n (Nat.not_lt.1 hlt) ha]
      exact hi.ids tr hmem
  · obtain ⟨j, hj⟩ := List.mem_iff_getElem?.1 htr'
    obtain ⟨tr₀, h₀, hid₀, -⟩ := getElem?_setRoot (w := w.setHeap h') hj
    exact hid₀ ▸ hi.ids tr₀ (List.mem_of_getElem? h₀)
  · obtain ⟨tr₁', h₁', hid₁, -⟩ := getElem?_setRoot (w := w.setHeap h') h₁
    obtain ⟨tr₂', h₂', hid₂, -⟩ := getElem?_setRoot (w := w.setHeap h') h₂
    exact hi.apart i j tr₁' tr₂' h₁' h₂' (hid₁ ▸ hne) (hid₁ ▸ hid₂ ▸ heq)
  · rw [hlives]
    exact (hfrozen d hd r hr).near hi.closed hk.grows (hi.documents d hd r hr)
  · obtain ⟨j, hj⟩ := List.mem_iff_getElem?.1 htr'
    obtain ⟨tr₀, h₀, hid₀, hroot₀⟩ := getElem?_setRoot (w := w.setHeap h') hj
    rw [hothers, hid₀]
    by_cases htj : t = j
    · subst htj
      rw [show w.transients[t]? = some tr₀ from h₀] at ht
      cases ht
      rw [if_pos rfl] at hroot₀
      exact hroot r (hroot₀ ▸ hr)
    · rw [if_neg htj] at hroot₀
      have hne₀ : tr₀.id ≠ 0 := hid₀ ▸ hne
      have hids : tr.id ≠ tr₀.id := fun heq => htj (hi.apart t j tr tr₀ ht h₀ hid heq)
      have hmem₀ := List.mem_of_getElem? h₀
      have hother : w.others tr.id tr₀.id := ⟨⟨hne₀, List.mem_map_of_mem hmem₀⟩, hids.symm⟩
      have hnear := hi.roots tr₀ hmem₀ hne₀ r (hroot₀ ▸ hr)
      refine Frozen.near hi.closed hk.grows (fun b n hb hn => ?_) hnear
      exact hk.same b n hn (fun ho => hnear.avoids b n hb hn (ho ▸ ⟨hlive, hids⟩))
        fun hw => (hW b hw).roots tr₀ hmem₀ hother r (hroot₀ ▸ hr) hb
  · rw [hlives] at hlive'
    rw [hothers]
    by_cases heq : i = tr.id
    · subst heq
      exact hk.tidy.clear a ha
    · have hold : Owned i w.heap a := by
        obtain ⟨n', hn', ho'⟩ := ha
        by_cases hlt : a < w.heap.length
        · have hget := List.getElem?_eq_getElem hlt
          obtain ⟨n'', hn'', ho⟩ := hk.owner a _ hget
          rw [show h'[a]? = some n' from hn'] at hn''
          cases hn''
          exact ⟨_, hget, ho.symm.trans ho'⟩
        · exact absurd (ho'.symm.trans (hk.fresh a n' (Nat.not_lt.1 hlt) hn')) heq
      have havoids := hi.clear i hlive' a hold
      have hlt : a < w.heap.length := by
        obtain ⟨n, hn, -⟩ := hold
        exact (List.getElem?_eq_some_iff.1 hn).1
      refine (Frozen.near hi.closed hk.grows (fun b n hb hn => ?_) ⟨hlt, havoids⟩).avoids
      exact hk.same b n hn (fun ho => havoids b n hb hn (ho ▸ ⟨hlive, Ne.symm heq⟩))
        fun hw => (hW b hw).owned i ⟨hlive', heq⟩ a hold hb

/-! ## Writes that add no child -/

/-- A write on one node that keeps its owner and adds no child. -/
structure Shrunk (p : Nat) (h h' : Heap) : Prop where
  length : h'.length = h.length
  get : ∀ (a : Nat) (n' : HeapNode), h'[a]? = some n' →
    ∃ n, h[a]? = some n ∧ n'.cell.owner = n.cell.owner ∧ (∀ k ∈ n'.kids, k ∈ n.kids) ∧ (a ≠ p → n' = n)

theorem shrunk_modify {h : Heap} {f : HeapNode → HeapNode}
    (hf : ∀ n, h[p]? = some n → (f n).cell.owner = n.cell.owner ∧ ∀ k ∈ (f n).kids, k ∈ n.kids) :
    Shrunk p h (h.modify p f) := by
  refine ⟨List.length_modify _ _ _, fun a n' hn' => ?_⟩
  rw [List.getElem?_modify] at hn'
  obtain ⟨n, hn, rfl⟩ := Option.map_eq_some_iff.1 hn'
  by_cases hpa : p = a
  · subst hpa
    rw [if_pos rfl]
    exact ⟨n, hn, (hf n hn).1, (hf n hn).2, fun hne => absurd rfl hne⟩
  · rw [if_neg hpa]
    exact ⟨n, hn, rfl, fun _ hk => hk, fun _ => rfl⟩

theorem Shrunk.trans {h h'' : Heap} (h₁ : Shrunk p h h') (h₂ : Shrunk p h' h'') : Shrunk p h h'' := by
  refine ⟨h₂.length.trans h₁.length, fun a n'' hn'' => ?_⟩
  obtain ⟨n', hn', ho', hk', hs'⟩ := h₂.get a n'' hn''
  obtain ⟨n, hn, ho, hk, hs⟩ := h₁.get a n' hn'
  exact ⟨n, hn, ho'.trans ho, fun k hkk => hk k (hk' k hkk), fun hne => (hs' hne).trans (hs hne)⟩

theorem Shrunk.near {h : Heap} {S : Nat → Prop} {a : Nat} (hs : Shrunk p h h') (ha : Near S h a) : Near S h' a := by
  refine ⟨hs.length ▸ ha.lt, avoids_of_closed (Avoids S h) (fun b n' hb hn' => ?_) ha.avoids⟩
  obtain ⟨n, hn, ho, hk, -⟩ := hs.get b n' hn'
  exact ⟨ho ▸ hb b n .refl hn, fun k hkk => hb.kid hn (hk k hkk)⟩

theorem Shrunk.frozen {h : Heap} {a : Nat} (hs : Shrunk p h h') (ha : ¬ Reach h a p) : Frozen h h' a := by
  intro b n hb hn
  obtain ⟨n', hn'⟩ : ∃ n', h'[b]? = some n' :=
    ⟨_, List.getElem?_eq_getElem (hs.length ▸ (List.getElem?_eq_some_iff.1 hn).1)⟩
  obtain ⟨m, hm, -, -, hsame⟩ := hs.get b n' hn'
  rw [hn] at hm
  cases hm
  have hbp : b ≠ p := fun heq => ha (heq ▸ hb)
  rw [hn', hsame hbp]

theorem persists_shrunk (hi : Inv w) (hs : Shrunk p w.heap h') (hp : w.Unshared p) : Persists w (w.setHeap h') := by
  refine ⟨⟨fun n' hn' k hk => ?_, fun n' hn' => ?_, hi.positive, hi.ids, hi.apart,
    fun d hd r hr => hs.near (hi.documents d hd r hr), fun tr htr hne r hr => hs.near (hi.roots tr htr hne r hr),
    fun i hlive a ha => ?_⟩, Nat.le_of_eq hs.length.symm, fun _ _ hd => hd, fun d hd r hr => hs.frozen (hp d hd r hr)⟩
  · obtain ⟨a, ha⟩ := List.mem_iff_getElem?.1 hn'
    obtain ⟨n, hn, -, hkids, -⟩ := hs.get a n' ha
    have hlt := hi.closed n (List.mem_of_getElem? hn) k (hkids k hk)
    exact hs.length ▸ hlt
  · obtain ⟨a, ha⟩ := List.mem_iff_getElem?.1 hn'
    obtain ⟨n, hn, ho, -⟩ := hs.get a n' ha
    exact ho ▸ hi.named n (List.mem_of_getElem? hn)
  · obtain ⟨n', hn', ho'⟩ := ha
    obtain ⟨n, hn, ho, -⟩ := hs.get a n' hn'
    have havoids := hi.clear i hlive a ⟨n, hn, ho.symm.trans ho'⟩
    exact (hs.near ⟨(List.getElem?_eq_some_iff.1 hn).1, havoids⟩).avoids

/-! ## New versions -/

theorem persists_beginEdit (hi : Inv w) {d : Document} (hd : d ∈ w.documents) :
    Persists w { w with transients := w.transients ++ [⟨d.root, d.src, w.nextId⟩], nextId := w.nextId + 1 } := by
  have hlive : ∀ i, i ≠ 0 ∧ i ∈ (w.transients ++ [(⟨d.root, d.src, w.nextId⟩ : Transient)]).map Transient.id →
      w.live i ∨ i = w.nextId := by
    rintro i ⟨hne, hmem⟩
    rw [List.map_append, List.mem_append] at hmem
    rcases hmem with hmem | hmem
    · exact .inl ⟨hne, hmem⟩
    · exact .inr (List.mem_singleton.1 hmem)
  have hnew : ∀ (a : Nat) (n : HeapNode), w.heap[a]? = some n → n.cell.owner ≠ w.nextId := fun a n hn =>
    Nat.ne_of_lt (hi.named n (List.mem_of_getElem? hn))
  have hnear : ∀ {S T : Nat → Prop} {a : Nat}, (∀ i, T i → S i ∨ i = w.nextId) → Near S w.heap a → Near T w.heap a :=
    fun hST ha => ⟨ha.lt, fun b n hb hn hT => (hST _ hT).elim (ha.avoids b n hb hn) (hnew b n hn)⟩
  have hold : ∀ tr ∈ w.transients, tr.id ≠ w.nextId := fun tr htr => Nat.ne_of_lt (hi.ids tr htr)
  refine ⟨⟨hi.closed, fun n hn => Nat.lt_succ_of_lt (hi.named n hn), Nat.succ_pos _, fun tr htr => ?_,
    fun i j tr tr' hi' hj hne heq => ?_, fun d' hd' r hr => hnear hlive (hi.documents d' hd' r hr),
    fun tr htr hne r hr => ?_, fun i hi' a ha => ?_⟩, Nat.le_refl _, fun _ _ hd => hd, fun _ _ _ _ _ _ _ hn => hn⟩
  · rcases List.mem_append.1 htr with htr | htr
    · exact Nat.lt_succ_of_lt (hi.ids tr htr)
    · rw [List.mem_singleton.1 htr]
      exact Nat.lt_succ_self _
  · have hget : ∀ {k : Nat} {tr : Transient}, (w.transients ++ [⟨d.root, d.src, w.nextId⟩])[k]? = some tr →
        w.transients[k]? = some tr ∨ k = w.transients.length ∧ tr.id = w.nextId := fun {k tr} hk => by
      by_cases hlt : k < w.transients.length
      · rw [List.getElem?_append_left hlt] at hk
        exact .inl hk
      · have hlen := (List.getElem?_eq_some_iff.1 hk).1
        rw [List.length_append, List.length_singleton] at hlen
        obtain rfl : k = w.transients.length := by omega
        rw [List.getElem?_append_right (Nat.le_refl _), Nat.sub_self] at hk
        exact .inr ⟨rfl, Option.some.inj hk ▸ rfl⟩
    rcases hget hi' with h₁ | ⟨rfl, h₁⟩ <;> rcases hget hj with h₂ | ⟨rfl, h₂⟩
    · exact hi.apart i j tr tr' h₁ h₂ hne heq
    · exact absurd (heq.trans h₂) (hold tr (List.mem_of_getElem? h₁))
    · exact absurd (heq.symm.trans h₁) (hold tr' (List.mem_of_getElem? h₂))
    · rfl
  · rcases List.mem_append.1 htr with htr | htr
    · refine hnear (fun i hoth => ?_) (hi.roots tr htr hne r hr)
      exact (hlive i hoth.1).imp_left fun hl => ⟨hl, hoth.2⟩
    · obtain rfl := List.mem_singleton.1 htr
      exact hnear (fun i hoth => hlive i hoth.1) (hi.documents d hd r hr)
  · rcases hlive i hi' with hl | rfl
    · have havoids := hi.clear i hl a ha
      obtain ⟨n, hn, -⟩ := ha
      refine (hnear (fun j hoth => ?_) ⟨(List.getElem?_eq_some_iff.1 hn).1, havoids⟩).avoids
      exact (hlive j hoth.1).imp_left fun hl => ⟨hl, hoth.2⟩
    · obtain ⟨n, hn, ho⟩ := ha
      exact absurd ho (hnew a n hn)

theorem persists_build (hi : Inv w) (c : Cell) {kids : List Nat} (hkids : ∀ k ∈ kids, k < w.heap.length) :
    Persists w (w.setHeap (w.heap ++ [⟨{ c with owner := 0 }, kids⟩])) := by
  have hfrozen : ∀ a, Frozen w.heap (w.heap ++ [⟨{ c with owner := 0 }, kids⟩]) a := fun a b n _ hn => by
    rw [List.getElem?_append_left (List.getElem?_eq_some_iff.1 hn).1, hn]
  have hlen : w.heap.length ≤ (w.heap ++ [(⟨{ c with owner := 0 }, kids⟩ : HeapNode)]).length := by simp
  refine ⟨⟨fun n hn k hk => ?_, fun n hn => ?_, hi.positive, hi.ids, hi.apart,
    fun d hd r hr => (hfrozen r).near hi.closed hlen (hi.documents d hd r hr),
    fun tr htr hne r hr => (hfrozen r).near hi.closed hlen (hi.roots tr htr hne r hr), fun i hlive a ha => ?_⟩, hlen,
    fun _ _ hd => hd, fun _ _ r _ => hfrozen r⟩
  · refine Nat.lt_of_lt_of_le ?_ hlen
    rcases List.mem_append.1 hn with hn | hn
    · exact hi.closed n hn k hk
    · rw [List.mem_singleton.1 hn] at hk
      exact hkids k hk
  · rcases List.mem_append.1 hn with hn | hn
    · exact hi.named n hn
    · rw [List.mem_singleton.1 hn]
      exact hi.positive
  · obtain ⟨n, hn, ho⟩ := ha
    by_cases hlt : a < w.heap.length
    · rw [setHeap, List.getElem?_append_left hlt] at hn
      exact ((hfrozen a).near hi.closed hlen ⟨hlt, hi.clear i hlive a ⟨n, hn, ho⟩⟩).avoids
    · rw [setHeap, List.getElem?_append_right (Nat.not_lt.1 hlt), List.getElem?_singleton] at hn
      split at hn
      · cases hn
        exact absurd ho.symm hlive.1
      · cases hn

/-- The end of `commit`: the version becomes a document, and the transient is dead. -/
theorem persists_commit (hi : Inv w) (ht : w.transients[t]? = some tr) (hid : tr.id ≠ 0) (src : Source) :
    Persists w { w with documents := w.documents ++ [⟨tr.root, src⟩], transients := w.transients.set t ⟨none, none, 0⟩ } := by
  have hmem := List.mem_of_getElem? ht
  have hget : ∀ {j : Nat} {tr' : Transient}, (w.transients.set t ⟨none, none, 0⟩)[j]? = some tr' → tr'.id ≠ 0 →
      j ≠ t ∧ w.transients[j]? = some tr' := fun {j tr'} hj hne => by
    rw [List.getElem?_set] at hj
    by_cases htj : t = j
    · rw [if_pos htj] at hj
      split at hj
      · cases hj
        exact absurd rfl hne
      · cases hj
    · rw [if_neg htj] at hj
      exact ⟨Ne.symm htj, hj⟩
  have hlive : ∀ i, i ≠ 0 ∧ i ∈ (w.transients.set t ⟨none, none, 0⟩).map Transient.id → w.others tr.id i := by
    rintro i ⟨hne, hmem'⟩
    obtain ⟨tr', htr', rfl⟩ := List.mem_map.1 hmem'
    obtain ⟨j, hj⟩ := List.mem_iff_getElem?.1 htr'
    obtain ⟨hjt, hj⟩ := hget hj hne
    refine ⟨⟨hne, List.mem_map_of_mem (List.mem_of_getElem? hj)⟩, fun heq => hjt ?_⟩
    exact hi.apart j t tr' tr hj ht hne heq
  refine ⟨⟨hi.closed, hi.named, hi.positive, fun tr' htr' => ?_, fun i j tr₁ tr₂ h₁ h₂ hne heq => ?_,
    fun d hd r hr => ?_, fun tr' htr' hne r hr => ?_, fun i hl a ha => ?_⟩, Nat.le_refl _, fun i d hd => ?_,
    fun _ _ _ _ _ _ _ hn => hn⟩
  · rcases List.mem_or_eq_of_mem_set htr' with htr' | rfl
    · exact hi.ids tr' htr'
    · exact hi.positive
  · exact hi.apart i j tr₁ tr₂ (hget h₁ hne).2 (hget h₂ (heq ▸ hne)).2 hne heq
  · rcases List.mem_append.1 hd with hd | hd
    · exact (hi.documents d hd r hr).mono fun i hl => (hlive i hl).1
    · rw [List.mem_singleton.1 hd] at hr
      exact (hi.roots tr hmem hid r hr).mono hlive
  · obtain ⟨j, hj⟩ := List.mem_iff_getElem?.1 htr'
    exact (hi.roots tr' (List.mem_of_getElem? (hget hj hne).2) hne r hr).mono fun i hoth => ⟨(hlive i hoth.1).1, hoth.2⟩
  · exact (hi.clear i (hlive i hl).1 a ha).mono fun j hoth => ⟨(hlive j hoth.1).1, hoth.2⟩
  · exact List.getElem?_append_left (List.getElem?_eq_some_iff.1 hd).1 ▸ hd

/-! ## One operation -/

/-- The caller hands a write a pointer that is its version's. -/
def Clean (w : World) : EditOp → Prop
  | .setInt n _ _ | .setUint n _ _ | .setFloat n _ | .setBytes n _ | .writeBits n _ _ _ => w.Unshared n
  | .splice _ n _ | .remove _ n _ => w.Unshared n
  | .ownChild t p _ | .ownChildNamed t p _ | .append t p _ => ∀ tr, w.check t = .ok tr → w.Alone tr.id p
  | .attach t p c | .replace t p _ c =>
    ∀ tr, w.check t = .ok tr → w.Alone tr.id p ∧ Avoids (w.others tr.id) w.heap c
  | _ => True

theorem check_ok (hc : w.check t = .ok tr) : w.transients[t]? = some tr ∧ tr.id ≠ 0 := by
  unfold check at hc
  split at hc
  · cases hc
  · rename_i tr' htr'
    by_cases hid : tr'.id = 0
    · rw [if_pos hid] at hc
      cases hc
    · rw [if_neg hid] at hc
      cases hc
      exact ⟨htr', hid⟩

theorem setRoot_self (ht : w.transients[t]? = some tr) : (w.setHeap h').setRoot t tr.root = w.setHeap h' := by
  have hsame : w.transients.modify t (fun tr' => { tr' with root := tr.root }) = w.transients := by
    refine List.ext_getElem? fun j => ?_
    rw [List.getElem?_modify]
    by_cases htj : t = j
    · subst htj
      rw [ht]
      simp
    · simp [htj]
  simp only [setRoot, setHeap, hsame]

/-- An edit that leaves the root pointer alone. -/
theorem persists_heap {W : Nat → Prop} (hi : Inv w) (ht : w.transients[t]? = some tr) (hid : tr.id ≠ 0)
    (hk : Kept tr.id W (w.others tr.id) w.heap h') (hW : ∀ p, W p → w.Alone tr.id p) : Persists w (w.setHeap h') := by
  rw [← setRoot_self ht]
  refine persists_kept hi ht hid hk hW fun r hr => ?_
  have hnear := hi.roots tr (List.mem_of_getElem? ht) hid r hr
  exact ⟨Nat.lt_of_lt_of_le hnear.lt hk.grows, hk.avoids r hnear.avoids⟩

/-- A node that is alone may be written to. -/
theorem Alone.mine (ha : w.Alone tr.id p) (hp : p < w.heap.length) :
    Mine tr.id (· = p) (w.others tr.id) w.heap p :=
  ⟨⟨hp, ha.avoids⟩, fun _ _ => .inr rfl⟩

theorem persists_ownChild (hi : Inv w) (ht : w.transients[t]? = some tr) (hid : tr.id ≠ 0) (ha : w.Alone tr.id p)
    (i : Nat) : Persists w (w.ownChild tr p i).1 := by
  unfold ownChild
  split
  · exact .refl hi
  · rename_i j hslot
    have hp : p < w.heap.length := by
      obtain ⟨n, hn, -⟩ := Option.bind_eq_some_iff.1 hslot
      exact (List.getElem?_eq_some_iff.1 hn).1
    have hcell := kept_modifyCell (f := unparse) (hi.tidy ht hid) (ha.mine hp) fun _ => rfl
    split
    · exact .refl hi
    · rename_i h k hown
      obtain ⟨hkept, howned⟩ := kept_ownKid hcell.tidy (hcell.mine (ha.mine hp)) hown
      have hlast := kept_modifyCell (W := (· = p)) (f := unparse) hkept.tidy (howned.mine hkept.tidy) fun _ => rfl
      exact persists_heap hi ht hid ((hcell.trans hkept).trans hlast) fun q hq => hq ▸ ha

theorem persists_ownRoot (hi : Inv w) (ht : w.transients[t]? = some tr) (hid : tr.id ≠ 0) {r : Nat}
    (hr : tr.root = some r) {h'' : Heap}
    (hk : Kept tr.id (fun _ => False) (w.others tr.id) (w.heap.own tr.id r).1 h'') :
    Persists w ((w.setHeap h'').setRoot t (some (w.heap.own tr.id r).2)) := by
  obtain ⟨hkept, howned⟩ := kept_own (W := fun _ => False) (hi.tidy ht hid) (hi.roots tr (List.mem_of_getElem? ht) hid r hr)
  refine persists_kept hi ht hid (hkept.trans hk) (fun _ hw => hw.elim) fun r' hr' => ?_
  cases hr'
  exact hk.near (howned.near hkept.tidy)

theorem persists_settle (hi : Inv w) (ht : w.transients[t]? = some tr) (hid : tr.id ≠ 0) (fuel : Nat) :
    Persists w (w.settle t tr fuel).1 := by
  obtain ⟨hkept, hroot⟩ := kept_reconcile (W := fun _ => False) (hi.tidy ht hid) tr.src fuel
    fun r hr => hi.roots tr (List.mem_of_getElem? ht) hid r hr
  exact persists_kept hi ht hid hkept (fun _ hw => hw.elim) hroot

/-- A container gains or loses children. -/
theorem persists_resize (hi : Inv w) (ht : w.transients[t]? = some tr) (hid : tr.id ≠ 0) (ha : w.Alone tr.id p)
    (hp : p < w.heap.length) {f : List Nat → List Nat} {c : Nat} (hc : Near (w.others tr.id) w.heap c)
    (hf : ∀ ks, ∀ k ∈ f ks, k ∈ ks ∨ k = c) :
    Persists w (w.setHeap ((w.heap.modifyCell p resize).modifyKids p f)) := by
  have hcell := kept_modifyCell (f := resize) (hi.tidy ht hid) (ha.mine hp) fun _ => rfl
  have hkids := kept_modifyKids (f := f) hcell.tidy (hcell.mine (ha.mine hp)) fun n _ k hk =>
    (hf n.kids k hk).imp_right fun (h : k = c) => h ▸ hcell.near hc
  exact persists_heap hi ht hid (hcell.trans hkids) fun q hq => hq ▸ ha

theorem persists_append (hi : Inv w) (ht : w.transients[t]? = some tr) (hid : tr.id ≠ 0) (ha : w.Alone tr.id p)
    (hp : p < w.heap.length) (type : CaptureType) :
    Persists w (w.setHeap (((w.heap ++ [element tr.id type]).modifyCell p resize).modifyKids p
      (· ++ [w.heap.length]))) := by
  have hmine := ha.mine hp
  have hnew : Kept tr.id (· = p) (w.others tr.id) w.heap (w.heap ++ [element tr.id type]) :=
    kept_alloc (hi.tidy ht hid) rfl fun _ hk => nomatch hk
  have howned : Owned tr.id (w.heap ++ [element tr.id type]) w.heap.length := by
    refine ⟨element tr.id type, ?_, rfl⟩
    rw [List.getElem?_append_right (Nat.le_refl _), Nat.sub_self]
    rfl
  have hcell := kept_modifyCell (f := resize) hnew.tidy (hnew.mine hmine) fun _ => rfl
  have hnear := hcell.near (howned.near hnew.tidy)
  have hkids := kept_modifyKids (f := fun ks => ks ++ [w.heap.length]) hcell.tidy (hcell.mine (hnew.mine hmine))
    fun m _ k hk => (List.mem_append.1 hk).imp_right fun h => (List.mem_singleton.1 h : k = w.heap.length) ▸ hnear
  exact persists_heap hi ht hid ((hnew.trans hcell).trans hkids) fun q hq => hq ▸ ha

theorem persists_splice (hi : Inv w) (hp : w.Unshared p) (bs : List UInt8) :
    Persists w (w.setHeap ((w.heap.modifyKids p fun _ => []).modifyCell p (spliced bs))) := by
  have hkids : Shrunk p w.heap (w.heap.modifyKids p fun _ => []) :=
    shrunk_modify fun _ _ => ⟨rfl, fun _ hk => nomatch hk⟩
  exact persists_shrunk hi (hkids.trans (shrunk_modify fun _ _ => ⟨rfl, fun _ hk => hk⟩)) hp

theorem persists_remove (hi : Inv w) (hp : w.Unshared p) (i : Nat) :
    Persists w (w.setHeap ((w.heap.modifyCell p resize).modifyKids p fun ks => ks.eraseIdx i)) := by
  have hcell : Shrunk p w.heap (w.heap.modifyCell p resize) := shrunk_modify fun _ _ => ⟨rfl, fun _ hk => hk⟩
  exact persists_shrunk hi (hcell.trans (shrunk_modify fun _ _ => ⟨rfl, fun _ hk => List.mem_of_mem_eraseIdx hk⟩)) hp

theorem getElem?_settle (ht : w.transients[t]? = some tr) (fuel : Nat) :
    ∃ tr', (w.settle t tr fuel).1.transients[t]? = some tr' ∧ tr'.id = tr.id := by
  generalize he : w.settle t tr fuel = r
  unfold settle at he
  subst he
  dsimp only [setRoot, setHeap]
  rw [List.getElem?_modify_eq, ht]
  exact ⟨_, rfl, rfl⟩

theorem persists_commitOp (hi : Inv w) (ht : w.transients[t]? = some tr) (hid : tr.id ≠ 0) (fuel : Nat) :
    Persists w (w.edit t tr (.commit t fuel)).1 := by
  have hsettle := persists_settle hi ht hid fuel
  obtain ⟨tr', ht', hid'⟩ := getElem?_settle ht fuel
  simp only [edit]
  split
  · rw [ht']
    exact hsettle.trans hi (persists_commit hsettle.inv ht' (hid' ▸ hid) tr.src)
  · exact hsettle
  · exact hsettle

theorem persists_edit (hi : Inv w) {o : EditOp} (hsub : subject o = some t) (hcheck : w.check t = .ok tr)
    (hc : w.Clean o) : Persists w (w.edit t tr o).1 := by
  obtain ⟨ht, hid⟩ := check_ok hcheck
  cases o with
  | rootMut u =>
    simp only [edit]
    split
    · exact .refl hi
    · rename_i r hr
      obtain ⟨hkept, -⟩ := kept_own (W := fun _ => False) (hi.tidy ht hid) (hi.roots tr (List.mem_of_getElem? ht) hid r hr)
      exact persists_ownRoot hi ht hid hr (.refl hkept.tidy)
  | ownPath u path =>
    simp only [edit, ownPath]
    split
    · exact .refl hi
    · rename_i r hr
      obtain ⟨hkept, howned⟩ :=
        kept_own (W := fun _ => False) (hi.tidy ht hid) (hi.roots tr (List.mem_of_getElem? ht) hid r hr)
      have hcell := kept_modifyCell (W := fun _ => False) (f := unparse) hkept.tidy (howned.mine hkept.tidy) fun _ => rfl
      exact persists_ownRoot hi ht hid hr (hcell.trans (kept_descend path hcell.tidy (hcell.owned howned)))
  | ownChild u p i =>
    cases hsub
    exact persists_ownChild hi ht hid (hc tr hcheck) i
  | ownChildNamed u p name =>
    cases hsub
    simp only [edit]
    split
    · exact .refl hi
    · exact persists_ownChild hi ht hid (hc tr hcheck) _
  | splice u p bs =>
    simp only [edit]
    split
    · exact .refl hi
    · exact persists_splice hi hc bs
  | append u p type =>
    cases hsub
    simp only [edit]
    split
    · exact .refl hi
    · rename_i hn
      exact persists_append hi ht hid (hc tr hcheck) (List.getElem?_eq_some_iff.1 hn).1 type
  | attach u p c =>
    cases hsub
    obtain ⟨ha, hchild⟩ := hc tr hcheck
    simp only [edit]
    split
    · rename_i hn hm
      exact persists_resize hi ht hid ha (List.getElem?_eq_some_iff.1 hn).1
        ⟨(List.getElem?_eq_some_iff.1 hm).1, hchild⟩ fun ks k hk => (List.mem_append.1 hk).imp_right List.mem_singleton.1
    · exact .refl hi
  | replace u p i c =>
    cases hsub
    obtain ⟨ha, hchild⟩ := hc tr hcheck
    simp only [edit]
    split
    · rename_i hn hm
      split
      · exact persists_resize hi ht hid ha (List.getElem?_eq_some_iff.1 hn).1
          ⟨(List.getElem?_eq_some_iff.1 hm).1, hchild⟩ fun ks k hk => List.mem_or_eq_of_mem_set hk
      · exact .refl hi
    · exact .refl hi
  | remove u p i =>
    simp only [edit]
    split
    · split
      · exact persists_remove hi hc i
      · exact .refl hi
    · exact .refl hi
  | serialize u fuel =>
    have hsettle := persists_settle hi ht hid fuel
    simp only [edit]
    split <;> exact hsettle
  | commit u fuel =>
    cases hsub
    exact persists_commitOp hi ht hid fuel
  | _ => cases hsub

theorem setInt_owner {c c' : Cell} {v : Int64} {e : Enc} (he : Zcow.setInt c v e = .ok c') : c'.owner = c.owner := by
  unfold Zcow.setInt at he
  split at he
  · cases he
  · split at he
    · cases he
    · cases he
      rfl

theorem setUint_owner {c c' : Cell} {v : UInt64} {e : Enc} (he : Zcow.setUint c v e = .ok c') : c'.owner = c.owner := by
  unfold Zcow.setUint at he
  split at he
  · cases he
  · split at he
    · cases he
    · cases he
      rfl

theorem setFloat_owner {c c' : Cell} {v : Double} (he : Zcow.setFloat c v = .ok c') : c'.owner = c.owner := by
  unfold Zcow.setFloat at he
  split at he
  · cases he
  · cases he
    rfl

theorem writeBits_owner {run run' : Node} {entry : String} {src : List UInt8} {v : Int64}
    (he : Zcow.writeBits run entry src v = .ok run') : run'.cell.owner = run.cell.owner := by
  unfold Zcow.writeBits at he
  simp only [bind, Except.bind, pure, Except.pure] at he
  repeat' split at he
  all_goals cases he
  all_goals rfl

/-- A setter, on a node no document leads to. -/
theorem persists_setLeaf (hi : Inv w) {n : Nat} (hn : w.Unshared n) {set : Cell → Except Result Cell}
    (hset : ∀ c c', set c = .ok c' → c'.owner = c.owner) : Persists w (w.setLeaf n set).1 := by
  unfold setLeaf
  split
  · exact .refl hi
  · rename_i c hcell
    split
    · exact .refl hi
    · rename_i c' hc'
      refine persists_shrunk hi (shrunk_modify fun m hm => ⟨?_, fun _ hk => hk⟩) hn
      unfold Heap.cell at hcell
      rw [hm] at hcell
      cases hcell
      exact hset _ _ hc'

theorem ok_of_mapError {c' : Cell} {r : Except Thrown Cell} (he : r.mapError Result.threw = .ok c') : r = .ok c' := by
  cases r with
  | error e => cases he
  | ok c =>
    cases he
    rfl

/-- **Step lemma.** -/
theorem persists_step (hi : Inv w) {o : EditOp} (hc : w.Clean o) : Persists w (w.step o) := by
  have hedit : ∀ t tr, subject o = some t → w.check t = .ok tr → Persists w (w.edit t tr o).1 := fun t tr hsub hcheck =>
    persists_edit hi hsub hcheck hc
  unfold step perform
  split
  · split
    · exact .refl hi
    · rename_i hd
      exact persists_beginEdit hi (List.mem_of_getElem? hd)
  · split
    · rename_i hkids
      exact persists_build hi _ fun k hk => of_decide_eq_true (List.all_eq_true.1 hkids k hk)
    · exact .refl hi
  · exact persists_setLeaf hi hc fun c c' he => setInt_owner (ok_of_mapError he)
  · exact persists_setLeaf hi hc fun c c' he => setUint_owner (ok_of_mapError he)
  · exact persists_setLeaf hi hc fun c c' he => setFloat_owner (ok_of_mapError he)
  · refine persists_setLeaf hi hc fun c c' he => ?_
    cases he
    rfl
  · refine persists_setLeaf hi hc fun c c' he => ?_
    unfold bitsCell at he
    dsimp only at he
    split at he
    · rename_i run hrun
      cases he
      exact writeBits_owner hrun
    · cases he
    · cases he
  · split
    · exact .refl hi
    · exact .refl hi
    · rename_i tr hcheck
      obtain ⟨t, hsub, hcheck⟩ := Option.map_eq_some_iff.1 hcheck
      rw [hsub]
      exact hedit t tr hsub hcheck

end Persists

/-! ## Runs -/

section Runs

variable {w : World} {before after ops : List EditOp}

/-- A world before any edit: its documents are the parser's, or were committed. -/
structure Started (w : World) : Prop where
  closed : Closed w.heap
  named : ∀ n ∈ w.heap, n.cell.owner < w.nextId
  positive : 0 < w.nextId
  transients : w.transients = []
  documents : ∀ d ∈ w.documents, ∀ r, d.root = some r → r < w.heap.length

theorem Started.inv (hs : Started w) : Inv w := by
  have hlive : ∀ i, ¬ w.live i := fun i hi => by
    obtain ⟨-, hi⟩ := hi
    rw [hs.transients] at hi
    cases hi
  refine ⟨hs.closed, hs.named, hs.positive, fun tr htr => ?_, fun i j tr _ hi _ _ _ => ?_,
    fun d hd r hr => ⟨hs.documents d hd r hr, fun _ _ _ _ => hlive _⟩, fun tr htr => ?_, fun i hi => absurd hi (hlive i)⟩
  · rw [hs.transients] at htr
    cases htr
  · rw [hs.transients] at hi
    cases hi
  · rw [hs.transients] at htr
    cases htr

/-- Every operation of a run is handed pointers of its own version. -/
def CleanRun : World → List EditOp → Prop
  | _, [] => True
  | w, o :: ops => w.Clean o ∧ CleanRun (w.step o) ops

theorem cleanRun_append (hc : CleanRun w (before ++ after)) : CleanRun w before ∧ CleanRun (w.run before) after := by
  induction before generalizing w with
  | nil => exact ⟨trivial, hc⟩
  | cons o before ih =>
    obtain ⟨hbefore, hafter⟩ := ih hc.2
    exact ⟨⟨hc.1, hbefore⟩, hafter⟩

/-- **Run lemma.** -/
theorem persists_run (hi : Inv w) (hc : CleanRun w ops) : Persists w (w.run ops) := by
  induction ops generalizing w with
  | nil => exact .refl hi
  | cons o ops ih =>
    have hstep := persists_step hi hc.1
    exact hstep.trans hi (ih hstep.inv hc.2)

/-- **Persistence.** A document there is at some moment is there ever after: the nodes it leads to, the tree a
reader sees and the bytes it serializes to are what they were. -/
theorem documents_persist (hs : Started w) (hc : CleanRun w (before ++ after)) {i : Nat} {d : Document}
    (hd : (w.run before).documents[i]? = some d) :
    (w.run (before ++ after)).documents[i]? = some d ∧
      (∀ r, d.root = some r → ∀ a, Reach (w.run before).heap r a →
        (w.run (before ++ after)).heap[a]? = (w.run before).heap[a]?) ∧
      (∀ r, d.root = some r → ∀ fuel, (w.run (before ++ after)).heap.unfold fuel r = (w.run before).heap.unfold fuel r) ∧
      emit (w.run (before ++ after)).heap d.src d.root = emit (w.run before).heap d.src d.root := by
  obtain ⟨hbefore, hafter⟩ := cleanRun_append hc
  have hi := (persists_run hs.inv hbefore).inv
  have hp := persists_run hi hafter
  have hrun : w.run (before ++ after) = (w.run before).run after := List.foldl_append
  rw [hrun]
  have hmem := List.mem_of_getElem? hd
  have hlt : ∀ r, d.root = some r → r < (w.run before).heap.length := fun r hr => (hi.documents d hmem r hr).lt
  have hfrozen : ∀ r, d.root = some r → Frozen (w.run before).heap ((w.run before).run after).heap r := hp.frozen d hmem
  refine ⟨hp.documents i d hd, fun r hr a ha => ?_, fun r hr fuel => (hfrozen r hr).unfold hi.closed (hlt r hr) fuel,
    Frozen.emit hi.closed hp.grows d.src fun r hr => ⟨hlt r hr, hfrozen r hr⟩⟩
  obtain ⟨n, hn⟩ : ∃ n, (w.run before).heap[a]? = some n := ⟨_, List.getElem?_eq_getElem (ha.lt hi.closed (hlt r hr))⟩
  rw [hn, hfrozen r hr a n ha hn]

end Runs

/-! ## A byte, edited -/

/-- A document of one byte, 7, and no edit yet. -/
def oneByte : World where
  heap := [⟨{ (default : Cell) with type := .struct, endOffset := 1 }, [1]⟩,
    ⟨{ (default : Cell) with name := some "n", endOffset := 1 }, []⟩]
  documents := [⟨some 0, some [7]⟩]
  transients := []
  nextId := 1

/-- The byte set to 8, in a version of its own. -/
def setEight : List EditOp := [.beginEdit 0, .ownPath 0 [.name "n"], .setInt 3 8 .fixed, .commit 0 4]

theorem started_oneByte : Started oneByte := by
  refine ⟨fun n hn k hk => ?_, fun n hn => ?_, by decide, rfl, fun d hd r hr => ?_⟩
  · have hall : ∀ n ∈ oneByte.heap, ∀ k ∈ n.kids, k < oneByte.heap.length := by decide
    exact hall n hn k hk
  · have hall : ∀ n ∈ oneByte.heap, n.cell.owner < oneByte.nextId := by decide
    exact hall n hn
  · obtain rfl := List.mem_singleton.1 hd
    cases hr
    decide

/-- Where the first nodes lead to the first nodes only. -/
theorem unshared_of_below {w : World} {m p : Nat} (hroots : w.documents.all (fun d => d.root.all (· < m)) = true)
    (hkids : (w.heap.take m).all (fun n => n.kids.all (· < m)) = true) (hp : m ≤ p) : w.Unshared p := by
  intro d hd r hr hreach
  have hall := List.all_eq_true.1 hroots d hd
  rw [hr] at hall
  have hbelow : p < m := by
    induction hreach with
    | refl => exact of_decide_eq_true hall
    | @step b k n _ hn hk ih =>
      have hb : b < m := by
        by_contra hb
        exact absurd (ih (Nat.not_lt.1 hb)) hb
      have hn' : (w.heap.take m)[b]? = some n := by
        rw [List.getElem?_take, if_pos hb, hn]
      exact of_decide_eq_true (List.all_eq_true.1 (List.all_eq_true.1 hkids n (List.mem_of_getElem? hn')) k hk)
  exact absurd hbelow (Nat.not_lt.2 hp)

/-- The second version keeps its 8 while a third is edited. -/
theorem documents_persist_eight :
    (oneByte.run (setEight ++ [.beginEdit 1, .ownPath 1 [.name "n"], .setInt 5 9 .fixed])).documents[1]? =
        some ⟨some 2, some [7]⟩ ∧
      emit (oneByte.run (setEight ++ [.beginEdit 1, .ownPath 1 [.name "n"], .setInt 5 9 .fixed])).heap (some [7]) (some 2) =
        .returned (.bytes [8]) := by
  have hc : CleanRun oneByte (setEight ++ [.beginEdit 1, .ownPath 1 [.name "n"], .setInt 5 9 .fixed]) :=
    ⟨trivial, trivial, unshared_of_below (m := 2) (by decide +kernel) (by decide +kernel) (by decide), trivial, trivial, trivial,
      unshared_of_below (m := 4) (by decide +kernel) (by decide +kernel) (by decide), trivial⟩
  have hd : (oneByte.run setEight).documents[1]? = some ⟨some 2, some [7]⟩ := by decide +kernel
  have h := documents_persist started_oneByte hc hd
  have hemit : emit (oneByte.run setEight).heap (some [7]) (some 2) = .returned (.bytes [8]) := by decide +kernel
  exact ⟨h.1, h.2.2.2.trans hemit⟩

/-- The subtree a version shares is attached to a third, and written through the pointer `append` returned: the
version reads 8 before and 9 after. -/
theorem attached_written_in_place :
    Started oneByte ∧ (oneByte.run setEight).documents[1]? = some ⟨some 2, some [7]⟩ ∧
      (((oneByte.run setEight).run [.beginEdit 1, .rootMut 1]).perform (.attach 1 4 3)).2 = .returned (.pointer (some 3)) ∧
      emit (oneByte.run setEight).heap (some [7]) (some 2) = .returned (.bytes [8]) ∧
      emit (oneByte.run (setEight ++ [.beginEdit 1, .rootMut 1, .attach 1 4 3, .setInt 3 9 .fixed])).heap (some [7])
        (some 2) = .returned (.bytes [9]) :=
  ⟨started_oneByte, by decide +kernel, by decide +kernel, by decide +kernel, by decide +kernel⟩

end World

end Bbq.Zcow
