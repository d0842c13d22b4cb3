import Mathlib.Data.List.Nodup
import Bbq.Writer.Layout

/-!
# The prefix holes of the C writer

`Tracks` says that a writer's offsets are where the layout's open holes lie. Each call keeps it as long
as it is clean (`tracks_step`).
-/

namespace Bbq.Writer

open Bbq.Lib Bbq.Lib.Piece

/-! ## Bytes -/

theorem length_fixedBytes (v : UInt64) (n : Nat) (little : Bool) : (fixedBytes v n little).length = n := by
  simp [fixedBytes]

theorem overwrite_append (before old after : List UInt8) {bs : List UInt8} (h : bs.length = old.length) :
    overwrite (before ++ old ++ after) before.length bs = before ++ bs ++ after := by
  induction bs generalizing before old with
  | nil =>
    obtain rfl := List.length_eq_zero_iff.1 h.symm
    rfl
  | cons b bs ih =>
    cases old with
    | nil => cases h
    | cons o old =>
      have hset : (before ++ o :: old ++ after).set before.length b = (before ++ [b]) ++ old ++ after := by simp
      have hlen : before.length + 1 = (before ++ [b]).length := by simp
      rw [overwrite, hset, hlen, ih _ _ (Nat.succ.inj h)]
      simp

theorem insertAt_append (before after bs : List UInt8) :
    insertAt (before ++ after) before.length bs = before ++ bs ++ after := by
  rw [insertAt, List.take_left, List.drop_left]

/-! ## Offsets -/

/-- The ids of count holes. -/
def idsOf (xs : List (Key × Nat)) : List Nat := xs.filterMap fun x => x.1.countId

/-- The offsets of `@rest` holes. -/
def restsOf (xs : List (Key × Nat)) : List Nat := (xs.filter fun x => x.1.isRest).map Prod.snd

theorem idsOf_append (xs ys : List (Key × Nat)) : idsOf (xs ++ ys) = idsOf xs ++ idsOf ys := List.filterMap_append

theorem restsOf_append (xs ys : List (Key × Nat)) : restsOf (xs ++ ys) = restsOf xs ++ restsOf ys := by
  simp [restsOf]

/-- The holes behind a patch. -/
def moved (d : Nat) (xs : List (Key × Nat)) : List (Key × Nat) := xs.map fun x => (x.1, x.2 + d)

theorem idsOf_moved (d : Nat) (xs : List (Key × Nat)) : idsOf (moved d xs) = idsOf xs := by
  simp [idsOf, moved, List.filterMap_map]

theorem restsOf_moved (d : Nat) (xs : List (Key × Nat)) : restsOf (moved d xs) = (restsOf xs).map (· + d) := by
  simp [restsOf, moved, List.filter_map]
  rfl

theorem mem_idsOf {xs : List (Key × Nat)} {id n : Nat} {f : Form} (h : (.count id f, n) ∈ xs) : id ∈ idsOf xs :=
  List.mem_filterMap.2 ⟨_, h, rfl⟩

theorem mem_restsOf {xs : List (Key × Nat)} {n : Nat} (h : n ∈ restsOf xs) : ∃ x ∈ xs, x.2 = n := by
  obtain ⟨x, hx, rfl⟩ := List.mem_map.1 h
  exact ⟨x, List.mem_of_mem_filter hx, rfl⟩

/-- A writer knows where the open holes of a layout lie. -/
structure Tracks (w : Writer) (l : Layout) : Prop where
  data : w.data = l.bytes
  counts : ∀ id f n, (.count id f, n) ∈ l.holes → w.countHoles[id]? = some n
  rests : w.restHoles = (restsOf l.holes).reverse
  distinct : (idsOf l.holes).Nodup

/-- What a call does that the layout allows: it succeeds where the buffer has room, which one that
grows always has, and keeps track. -/
def Advances (w : Writer) (next : Option Writer) (l' : Layout) : Prop :=
  ∃ fits w', next = (if fits = true then some w' else none) ∧ (w.capacity = none → fits = true) ∧
    w'.capacity = w.capacity ∧ Tracks w' l'

section Step

variable {w : Writer} {l l' before after : Layout}

theorem fits_of_growable {need : Nat} (h : w.capacity = none) : w.reserve need = true := by
  rw [Writer.reserve, h]

theorem holes_append_text (l : Layout) (bs : List UInt8) : Layout.holes (l ++ [.text bs]) = l.holes := by
  simp [Layout.holes, offsets]

theorem holes_append_hole (l : Layout) (key : Key) :
    Layout.holes (l ++ [.hole key]) = l.holes ++ [(key, l.bytes.length)] := by
  simp [Layout.holes, Layout.bytes, offsets]

theorem tracks_write (h : Tracks w l) (bs : List UInt8) : Advances w (w.write bs) (l ++ [.text bs]) := by
  refine ⟨_, _, rfl, fits_of_growable, rfl, ?_⟩
  refine ⟨?_, by rw [holes_append_text]; exact h.counts, by rw [holes_append_text]; exact h.rests,
    by rw [holes_append_text]; exact h.distinct⟩
  rw [Layout.bytes, shown_append, ← Layout.bytes, ← h.data]
  simp [shown]

theorem tracks_pushRest (h : Tracks w l) : Advances w w.pushRest (l ++ [.hole .rest]) := by
  refine ⟨true, _, rfl, fun _ => rfl, rfl, ?_, fun id f n hmem => ?_, ?_, ?_⟩
  · rw [Layout.bytes, shown_append, ← Layout.bytes, ← h.data]
    simp [shown, Key.room]
  · rw [holes_append_hole] at hmem
    rcases List.mem_append.1 hmem with hmem | hmem
    · exact h.counts id f n hmem
    · cases List.mem_singleton.1 hmem
  · rw [holes_append_hole, restsOf_append, List.reverse_append, ← h.rests, ← h.data]
    rfl
  · rw [holes_append_hole, idsOf_append]
    simpa [idsOf, Key.countId] using h.distinct

/-! ### Reserving a count -/

theorem lt_doubled {id fuel nc : Nat} (hnc : 0 < nc) (h : id < nc + fuel) : id < doubled id fuel nc := by
  induction fuel generalizing nc with
  | zero => exact h
  | succ fuel ih =>
    rw [doubled]
    split
    · exact ih (by omega) (by omega)
    · omega

/-- Growing `count_holes` keeps what is recorded. -/
theorem countHolesEnsure_eq (w : Writer) (id : Nat) :
    ∃ zeros, w.countHolesEnsure id = { w with countHoles := w.countHoles ++ zeros } ∧
      id < (w.countHoles ++ zeros).length := by
  unfold countHolesEnsure
  split
  · exact ⟨[], by rw [List.append_nil], by rwa [List.append_nil]⟩
  · refine ⟨_, rfl, ?_⟩
    have hlt : id < doubled id (id + 1) (if w.countHoles.length = 0 then 8 else w.countHoles.length) := by
      refine lt_doubled ?_ (by omega)
      split <;> omega
    rw [List.length_append, List.length_replicate]
    omega

theorem reserveCount_eq (w : Writer) (id : Nat) (f : Form) :
    ∃ zeros, id < (w.countHoles ++ zeros).length ∧ w.reserveCount id f =
      if (f.isUleb || w.reserve (f.width / 8)) = true then
        some { w with data := w.data ++ (Key.count id f).room
                      countHoles := (w.countHoles ++ zeros).set id w.data.length }
      else none := by
  obtain ⟨zeros, hensure, hlt⟩ := countHolesEnsure_eq w id
  refine ⟨zeros, hlt, ?_⟩
  unfold reserveCount Key.room
  rw [hensure]
  by_cases hu : f.isUleb = true
  · simp only [hu, if_true, Bool.true_or, List.append_nil]
  · simp only [hu, Bool.false_or, Bool.not_eq_true] at *
    rfl

theorem tracks_reserveCount (h : Tracks w l) {id : Nat} (hid : id ∉ idsOf l.holes) (f : Form) :
    Advances w (w.reserveCount id f) (l ++ [.hole (.count id f)]) := by
  obtain ⟨zeros, hlt, hres⟩ := reserveCount_eq w id f
  refine ⟨_, _, hres, fun hcap => ?_, rfl, ?_, fun id' f' n hmem => ?_, ?_, ?_⟩
  · rw [fits_of_growable hcap, Bool.or_true]
  · rw [Layout.bytes, shown_append, ← Layout.bytes, ← h.data]
    simp [shown]
  · rw [holes_append_hole] at hmem
    rcases List.mem_append.1 hmem with hmem | hmem
    · have hne : id ≠ id' := by
        rintro rfl
        exact hid (mem_idsOf hmem)
      have hold := h.counts id' f' n hmem
      rw [List.getElem?_set_ne hne, List.getElem?_append_left (List.getElem?_eq_some_iff.1 hold).1]
      exact hold
    · cases List.mem_singleton.1 hmem
      rw [← h.data, List.getElem?_set_self hlt]
  · rw [holes_append_hole, restsOf_append, List.reverse_append, ← h.rests]
    rfl
  · rw [holes_append_hole, idsOf_append]
    refine List.nodup_append.2 ⟨h.distinct, List.nodup_singleton _, ?_⟩
    rintro a ha b hb rfl
    exact hid (List.mem_singleton.1 hb ▸ ha)

/-! ### Patching -/

/-- Where a hole is patched, the layout around it. -/
theorem holes_split (key : Key) :
    Layout.holes (before ++ .hole key :: after) =
      Layout.holes before ++ (key, before.bytes.length) ::
        offsets Key.room (before.bytes.length + key.room.length) after := offsets_hole

theorem before_le {x : Key × Nat} (hx : x ∈ Layout.holes before) : x.2 ≤ before.bytes.length := by
  have := (le_of_mem_offsets hx).2
  rw [Nat.zero_add] at this
  exact this

/-- Filling a hole: what is before it stays, what is behind moves. -/
theorem tracks_fill {key : Key} {bs : List UInt8} {d : Nat} {w' : Writer} (h : Tracks w (before ++ .hole key :: after))
    (hd : bs.length = key.room.length + d) (hdata : w'.data = before.bytes ++ bs ++ shown Key.room after)
    (hbefore : ∀ id f n, (.count id f, n) ∈ Layout.holes before → w'.countHoles[id]? = some n)
    (hafter : ∀ id f n, (.count id f, n) ∈ offsets Key.room (before.bytes.length + key.room.length) after →
      w'.countHoles[id]? = some (n + d))
    (hrests : w'.restHoles =
      ((restsOf (offsets Key.room (before.bytes.length + key.room.length) after)).map (· + d)).reverse ++
        (restsOf before.holes).reverse) : Tracks w' (before ++ .text bs :: after) := by
  have hholes : Layout.holes (before ++ .text bs :: after) =
      before.holes ++ moved d (offsets Key.room (before.bytes.length + key.room.length) after) := by
    refine (offsets_fill key (by omega)).trans ?_
    rw [hd, Nat.add_sub_cancel_left]
    rfl
  refine ⟨?_, fun id f n hmem => ?_, ?_, ?_⟩
  · exact hdata.trans (shown_fill bs).symm
  · rw [hholes] at hmem
    rcases List.mem_append.1 hmem with hmem | hmem
    · exact hbefore id f n hmem
    · obtain ⟨⟨key', m⟩, hx, hxn⟩ := List.mem_map.1 hmem
      cases hxn
      exact hafter id f m hx
  · rw [hholes, restsOf_append, restsOf_moved, List.reverse_append, hrests]
  · have hdis := h.distinct
    rw [holes_split, idsOf_append] at hdis
    rw [hholes, idsOf_append, idsOf_moved]
    refine hdis.sublist (List.Sublist.append_left ?_ _)
    exact List.Sublist.filterMap _ (List.sublist_cons_self _ _)

/-- Another hole has another id. -/
theorem other_id {id id' n : Nat} {f f' : Form} (h : Tracks w (before ++ .hole (.count id f) :: after))
    (hmem : (.count id' f', n) ∈ before.holes ∨
      (.count id' f', n) ∈ offsets Key.room (before.bytes.length + (Key.count id f).room.length) after) : id' ≠ id := by
  rintro rfl
  have hdis := h.distinct
  rw [holes_split, idsOf_append] at hdis
  obtain ⟨-, htail, hne⟩ := List.nodup_append.1 hdis
  rcases hmem with hmem | hmem
  · exact hne _ (mem_idsOf hmem) _ List.mem_cons_self rfl
  · exact (List.nodup_cons.1 htail).1 (mem_idsOf hmem)

theorem data_split {key : Key} (h : Tracks w (before ++ .hole key :: after)) :
    w.data = before.bytes ++ key.room ++ shown Key.room after := h.data.trans shown_hole

theorem rests_split {key : Key} (h : Tracks w (before ++ .hole key :: after)) :
    w.restHoles = (restsOf (offsets Key.room (before.bytes.length + key.room.length) after)).reverse ++
      (restsOf [(key, before.bytes.length)]).reverse ++ (restsOf before.holes).reverse := by
  rw [h.rests, holes_split, restsOf_append, ← List.singleton_append, restsOf_append, List.reverse_append,
    List.reverse_append]

/-- Where a count was reserved. -/
theorem hole_split {id : Nat} {f : Form} (h : Tracks w (before ++ .hole (.count id f) :: after)) :
    w.countHoles[id]? = some before.bytes.length := by
  refine h.counts id f _ ?_
  rw [holes_split]
  simp

theorem counts_before {key : Key} (h : Tracks w (before ++ .hole key :: after)) {id n : Nat} {f : Form}
    (hmem : (.count id f, n) ∈ before.holes) : w.countHoles[id]? = some n :=
  h.counts id f n (by rw [holes_split]; exact List.mem_append_left _ hmem)

theorem counts_after {key : Key} (h : Tracks w (before ++ .hole key :: after)) {id n : Nat} {f : Form}
    (hmem : (.count id f, n) ∈ offsets Key.room (before.bytes.length + key.room.length) after) :
    w.countHoles[id]? = some n :=
  h.counts id f n (by rw [holes_split]; exact List.mem_append_right _ (List.mem_cons_of_mem _ hmem))

/-- A fixed-width count is patched in the room left for it. -/
theorem tracks_patchCount_fixed {id : Nat} {f : Form} (h : Tracks w (before ++ .hole (.count id f) :: after))
    (hf : f.isUleb = false) (count : UInt64) (little : Bool) :
    Advances w (w.patchCount id count f little) (before ++ .text (f.encode count little) :: after) := by
  have hroom : (f.encode count little).length = (Key.count id f).room.length := by
    simp [Form.encode, Key.room, hf, length_fixedBytes]
  refine ⟨true, { w with data := overwrite w.data before.bytes.length (f.encode count little) }, ?_, fun _ => rfl, rfl, ?_⟩
  · rw [patchCount, hole_split h]
    simp [hf]
  · refine tracks_fill (d := 0) h hroom ?_ (fun _ _ _ => counts_before h) (fun _ _ _ => counts_after h) ?_
    · show overwrite w.data _ _ = _
      rw [data_split h, overwrite_append _ _ _ hroom]
    · refine (rests_split h).trans ?_
      simp [restsOf, Key.isRest]

/-- A ULEB128 count is inserted. The holes that move are those at a greater offset, so all that are behind
have to be. -/
theorem tracks_patchCount_uleb {id : Nat} {f : Form} (h : Tracks w (before ++ .hole (.count id f) :: after))
    (hf : f.isUleb = true) (hapart : apart after = true) (count : UInt64) (little : Bool) :
    Advances w (w.patchCount id count f little) (before ++ .text (f.encode count little) :: after) := by
  have hroom : (Key.count id f).room = [] := if_pos hf
  have hlt : ∀ x ∈ offsets Key.room (before.bytes.length + (Key.count id f).room.length) after,
      before.bytes.length < x.2 := fun x hx => by
    rw [hroom] at hx
    exact lt_of_apart hapart hx
  let bs := f.encode count little
  let shift (m : Nat) : Nat := if before.bytes.length < m then m + bs.length else m
  refine ⟨w.reserve bs.length, { w with
    data := insertAt w.data before.bytes.length bs
    countHoles := w.countHoles.mapIdx fun i m => if i ≠ id ∧ before.bytes.length < m then m + bs.length else m
    restHoles := w.restHoles.map shift }, ?_, fits_of_growable, rfl, ?_⟩
  · rw [patchCount, hole_split h]
    simp only [hf, if_true]
    rfl
  · refine tracks_fill (d := bs.length) h (by rw [hroom]; simp [bs]) ?_ (fun id' f' n hmem => ?_)
      (fun id' f' n hmem => ?_) ?_
    · show insertAt w.data _ bs = _
      rw [data_split h, hroom, List.append_nil, insertAt_append]
    · rw [List.getElem?_mapIdx, counts_before h hmem, Option.map_some, if_neg]
      rintro ⟨-, hn⟩
      have := before_le hmem
      exact absurd hn (Nat.not_lt.2 this)
    · rw [List.getElem?_mapIdx, counts_after h hmem, Option.map_some, if_pos ⟨other_id h (.inr hmem), hlt _ hmem⟩]
    · have hafter : (restsOf (offsets Key.room (before.bytes.length + (Key.count id f).room.length) after)).map shift =
          (restsOf (offsets Key.room (before.bytes.length + (Key.count id f).room.length) after)).map (· + bs.length) := by
        refine List.map_congr_left fun n hn => if_pos ?_
        obtain ⟨x, hx, rfl⟩ := mem_restsOf hn
        exact hlt x hx
      have hbefore : (restsOf before.holes).map shift = restsOf before.holes := by
        refine (List.map_congr_left fun n hn => if_neg ?_).trans (List.map_id _)
        obtain ⟨x, hx, rfl⟩ := mem_restsOf hn
        exact Nat.not_lt.2 (before_le hx)
      show w.restHoles.map shift = _
      rw [rests_split h, List.map_append, List.map_append, List.map_reverse, List.map_reverse, List.map_reverse, hafter,
        hbefore]
      simp [restsOf, Key.isRest]

/-- A `@rest` size is inserted. No offset moves, so nothing behind may be open. -/
theorem tracks_patchRest (h : Tracks w (before ++ .hole .rest :: after)) (hafter : Layout.holes after = []) (f : Form)
    (little : Bool) :
    Advances w (w.patchRest f little)
      (before ++ .text (f.encode (UInt64.ofNat (shown Key.room after).length) little) :: after) := by
  have hnone : ∀ n, offsets Key.room n after = [] := fun n => by
    rw [← Nat.zero_add n, offsets_add]
    exact List.map_eq_nil_iff.2 hafter
  have hrests : w.restHoles = before.bytes.length :: (restsOf before.holes).reverse := by
    rw [rests_split h, hnone]
    rfl
  have hdata : w.data = before.bytes ++ shown Key.room after := by
    rw [data_split h]
    simp [Key.room]
  have hlen : w.data.length - before.bytes.length = (shown Key.room after).length := by
    rw [hdata, List.length_append]
    omega
  let bs := f.encode (UInt64.ofNat (shown Key.room after).length) little
  refine ⟨w.reserve bs.length, { w with
    data := insertAt w.data before.bytes.length bs, restHoles := (restsOf before.holes).reverse }, ?_,
    fits_of_growable, rfl, ?_⟩
  · unfold patchRest
    rw [hrests]
    dsimp only
    rw [hlen]
  · refine tracks_fill (d := bs.length) h (by simp [Key.room, bs]) ?_ (fun _ _ _ => counts_before h)
      (fun id f n hmem => ?_) ?_
    · show insertAt w.data _ bs = _
      rw [hdata, insertAt_append]
    · rw [hnone] at hmem
      cases hmem
    · rw [hnone]
      rfl

/-- **Step lemma**: a clean call the layout allows keeps track. -/
theorem tracks_step {o : Op} (h : Tracks w l) (hl : l.step o = some l') (hclean : l.clean o = true) :
    Advances w (w.step o) l' := by
  cases o with
  | write bs =>
    cases hl
    exact tracks_write h bs
  | reserveCount id f =>
    rw [Layout.step] at hl
    split at hl
    · cases hl
    · rename_i hid
      cases hl
      exact tracks_reserveCount h hid f
  | patchCount id count f little =>
    obtain ⟨⟨before, key, after⟩, hsplit, rfl⟩ := Option.map_eq_some_iff.1 hl
    obtain ⟨rfl, hkey⟩ := splitLast_eq hsplit
    obtain rfl : key = .count id f := by simpa using hkey
    cases hf : f.isUleb with
    | false => exact tracks_patchCount_fixed h hf count little
    | true =>
      simp only [Layout.clean, hsplit, hf, Bool.not_true, Bool.false_or] at hclean
      exact tracks_patchCount_uleb h hf hclean count little
  | pushRest =>
    cases hl
    exact tracks_pushRest h
  | patchRest f little =>
    obtain ⟨⟨before, key, after⟩, hsplit, rfl⟩ := Option.map_eq_some_iff.1 hl
    obtain ⟨rfl, hkey⟩ := splitLast_eq hsplit
    obtain rfl : key = .rest := by
      cases key with
      | rest => rfl
      | count id f => cases hkey
    simp only [Layout.clean, hsplit, List.isEmpty_iff] at hclean
    exact tracks_patchRest h hclean f little

/-- **Run lemma**: so do clean calls. -/
theorem tracks_run (h : Tracks w l) {ops : List Op} (hl : l.run ops = some l') (hclean : l.cleanRun ops = true) :
    Advances w (w.run ops) l' := by
  induction ops generalizing w l with
  | nil =>
    cases hl
    exact ⟨true, w, rfl, fun _ => rfl, rfl, h⟩
  | cons o ops ih =>
    obtain ⟨l₁, hstep, hrest⟩ := Option.bind_eq_some_iff.1 hl
    rw [Layout.cleanRun, hstep] at hclean
    obtain ⟨hone, hmany⟩ := Bool.and_eq_true_iff.1 hclean
    obtain ⟨fits, w₁, hw₁, hgrow, hcap, h₁⟩ := tracks_step h hstep hone
    obtain ⟨fits', w', hw', hgrow', hcap', h'⟩ := ih h₁ hrest hmany
    refine ⟨fits && fits', w', ?_, fun hnone => ?_, hcap'.trans hcap, h'⟩
    · rw [run, hw₁]
      cases fits with
      | false => rfl
      | true => exact hw'
    · rw [hgrow hnone, hgrow' (hcap.trans hnone)]
      rfl

end Step

/-! ## The buffer -/

theorem tracks_init (capacity : Option Nat) : Tracks (init capacity) [] :=
  ⟨rfl, (fun _ _ _ h => nomatch h), rfl, List.nodup_nil⟩

theorem bytes_texts (segments : List (List UInt8)) :
    Layout.bytes (segments.map Piece.text) = segments.flatten := by
  induction segments with
  | nil => rfl
  | cons s segments ih => rw [List.map_cons, Layout.bytes, shown, ← Layout.bytes, ih, List.flatten_cons]

def uleb : Form := ⟨64, true⟩

theorem encode_one : uleb.encode 1 true = [1] := by
  show Leb128.C.writeUleb128 _ = _
  rw [Leb128.C.writeUleb128]
  rfl

theorem encode_two : uleb.encode 2 true = [2] := by
  show Leb128.C.writeUleb128 _ = _
  rw [Leb128.C.writeUleb128]
  rfl

def countsApart : List Op :=
  [.reserveCount 0 uleb, .patchCount 0 1 uleb true, .write [7], .reserveCount 1 uleb, .patchCount 1 2 uleb true,
    .write [8, 9]]

def countsAdjacent : List Op :=
  [.reserveCount 0 uleb, .reserveCount 1 uleb, .patchCount 0 1 uleb true, .write [7], .patchCount 1 2 uleb true,
    .write [8, 9]]

theorem run_countsApart : Layout.run [] countsApart = some ([[1], [7], [2], [8, 9]].map Piece.text) := by
  rw [← encode_one, ← encode_two]
  rfl

end Bbq.Writer
