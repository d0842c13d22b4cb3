import Bbq.Zcow.Emit

/-!
# Patching in place against rebuilding

`emit_document` writes the changed leaves over a copy of the input when `changes_length` is false and emits the tree
node by node otherwise. Both are compared here on one tree:

* `emitted` is what `emit_node` writes for a node, `patched` what `patch_node` leaves in its span, each as a list
  (`emitNode_eq`, `patchNode_eq`).
* `Laid`: the children of a container lie one behind the other from its start to its end. The entries of a bit run have
  no bytes; the run covers its own.
* `Sized` is where a node is emitted in as many bytes as its span has, `Blank` where an external leaf is emitted as the
  bytes it has: `emit_node` writes zeros for one that is no longer `parsed`, `patch_node` nothing.
-/

namespace Bbq.Zcow

/-- The bytes a node takes up in the source. -/
def Cell.width (c : Cell) : Nat := c.endOffset - c.startOffset

def span (bytes : List UInt8) (c : Cell) : List UInt8 := bytesAt bytes c.startOffset c.width

/-! ## The nodes the emitter comes to -/

mutual

/-- `P` of every node emitted by itself: what is under a `parsed` node, or under one with bytes of its own, is not. -/
def EveryEmitted (P : Node → Prop) : Node → Prop
  | .mk c kids =>
    P (.mk c kids) ∧ (c.parsed = false → c.type.isContainer = true → c.bval = [] → EveryEmittedIn P kids)

def EveryEmittedIn (P : Node → Prop) : List Node → Prop
  | [] => True
  | n :: ns => EveryEmitted P n ∧ EveryEmittedIn P ns

end

section

variable {P Q : Node → Prop}

theorem EveryEmitted.here {n : Node} (h : EveryEmitted P n) : P n := by
  cases n
  exact h.1

mutual

theorem everyEmitted_and (n : Node) :
    EveryEmitted (fun m => P m ∧ Q m) n ↔ EveryEmitted P n ∧ EveryEmitted Q n := by
  cases n with
  | mk c kids =>
    have ih := everyEmittedIn_and kids
    simp only [EveryEmitted, ih]
    tauto

theorem everyEmittedIn_and (ns : List Node) :
    EveryEmittedIn (fun m => P m ∧ Q m) ns ↔ EveryEmittedIn P ns ∧ EveryEmittedIn Q ns := by
  cases ns with
  | nil => exact ⟨fun _ => ⟨trivial, trivial⟩, fun _ => trivial⟩
  | cons n ns =>
    simp only [EveryEmittedIn, everyEmitted_and n, everyEmittedIn_and ns]
    tauto

end

mutual

theorem everyEmitted_under (n : Node) (h : EveryEmitted P n) : EveryEmitted (EveryEmitted P) n := by
  cases n with
  | mk c kids => exact ⟨h, fun hp hc hb => everyEmittedIn_under kids (h.2 hp hc hb)⟩

theorem everyEmittedIn_under (ns : List Node) (h : EveryEmittedIn P ns) : EveryEmittedIn (EveryEmitted P) ns := by
  cases ns with
  | nil => trivial
  | cons n ns => exact ⟨everyEmitted_under n h.1, everyEmittedIn_under ns h.2⟩

end

mutual

theorem everyEmitted_congr {R : Node → Prop} (n : Node) (hR : EveryEmitted R n) (h : ∀ m, R m → (P m ↔ Q m)) :
    EveryEmitted P n ↔ EveryEmitted Q n := by
  cases n with
  | mk c kids =>
    exact and_congr (h _ hR.1) (forall_congr' fun hp => forall_congr' fun hc => forall_congr' fun hb =>
      everyEmittedIn_congr kids (hR.2 hp hc hb) h)

theorem everyEmittedIn_congr {R : Node → Prop} (ns : List Node) (hR : EveryEmittedIn R ns)
    (h : ∀ m, R m → (P m ↔ Q m)) : EveryEmittedIn P ns ↔ EveryEmittedIn Q ns := by
  cases ns with
  | nil => exact Iff.rfl
  | cons n ns => exact and_congr (everyEmitted_congr n hR.1 h) (everyEmittedIn_congr ns hR.2 h)

end

end

/-! ## Trees whose children tile -/

/-- Nodes that lie one behind the other from `pos` to `stop`. -/
def Tiles : Nat → List Node → Nat → Prop
  | pos, [], stop => pos = stop
  | pos, n :: ns, stop =>
    n.cell.startOffset = pos ∧ n.cell.startOffset ≤ n.cell.endOffset ∧ Tiles n.cell.endOffset ns stop

/-- An entry of a bit run: a value computed from the run's bytes. -/
def Entry (n : Node) : Prop := n.cell.type = .computed ∧ n.cell.startOffset = n.cell.endOffset ∧ n.kids = []

/-- How a parse lays out a node and the ones under it. -/
structure Laid (n : Node) : Prop where
  span : n.cell.startOffset ≤ n.cell.endOffset
  /-- No byte is uncovered; children added or dropped since are not the parse's. -/
  tiles : n.cell.type.isContainer = true → n.cell.bitsContainer = false → n.cell.resized = false →
    Tiles n.cell.startOffset n.kids n.cell.endOffset
  entries : n.cell.bitsContainer = true → ∀ k ∈ n.kids, Entry k
  leaf : n.cell.type.isContainer = false → n.kids = []
  width : n.cell.type.leafWidth ≠ 0 → n.cell.startOffset < n.cell.endOffset → n.cell.width = n.cell.type.leafWidth

/-! ## Where the two agree -/

/-- A node no longer described by its span is emitted in as many bytes. -/
structure Sized (n : Node) : Prop where
  /-- A varint has kept its encoding. -/
  computed : n.cell.parsed = false → n.cell.type = .computed → n.cell.startOffset = n.cell.endOffset
  owned : n.cell.parsed = false → n.cell.type.isContainer = true → n.cell.bval ≠ [] → n.cell.bval.length = n.cell.width
  /-- A bit run has bytes of its own. -/
  run : n.cell.parsed = false → n.cell.type.isContainer = true → n.cell.bitsContainer = true → n.cell.bval = [] →
    n.cell.startOffset = n.cell.endOffset

/-- An external leaf no longer described by its span has nothing but zeros there. -/
def Blank (bytes : List UInt8) (n : Node) : Prop :=
  n.cell.parsed = false → n.cell.type = .external → span bytes n.cell = List.replicate n.cell.width 0

/-! ## Both as lists -/

mutual

/-- What `emit_node` writes where no length changes. -/
def emitted (bytes : List UInt8) : Node → List UInt8
  | .mk c kids =>
    if c.parsed then span bytes c
    else if c.type = .computed then []
    else if c.type.isContainer then if c.bval ≠ [] then c.bval else emittedAll bytes kids
    else if c.type = .bytes ∨ c.type = .string then c.bval
    else fixedLeaf c.width c

def emittedAll (bytes : List UInt8) : List Node → List UInt8
  | [] => []
  | n :: ns => emitted bytes n ++ emittedAll bytes ns

end

mutual

/-- What `patch_node` leaves in a node's span. -/
def patched (bytes : List UInt8) : Node → List UInt8
  | .mk c kids =>
    if c.parsed then span bytes c
    else if c.bval ≠ [] ∧ c.startOffset < c.endOffset ∧ c.type.isContainer then c.bval
    else
      match kids with
      | [] =>
        if c.type = .computed then span bytes c
        else if c.type = .bytes ∨ c.type = .string then c.bval
        else if c.type.leafWidth = 0 then span bytes c
        else encodeLeaf c
      | n :: ns => patched bytes n ++ patchedAll bytes ns

def patchedAll (bytes : List UInt8) : List Node → List UInt8
  | [] => []
  | n :: ns => patched bytes n ++ patchedAll bytes ns

end

section

variable {bytes : List UInt8} {c : Cell} {kids : List Node}

theorem emitted_parsed (hp : c.parsed = true) : emitted bytes (.mk c kids) = span bytes c := if_pos hp

theorem patched_parsed (hp : c.parsed = true) : patched bytes (.mk c kids) = span bytes c := by
  unfold patched
  exact if_pos hp

variable (hp : c.parsed = false)
include hp

theorem emitted_computed (hc : c.type = .computed) : emitted bytes (.mk c kids) = [] := by
  unfold emitted
  rw [hp, if_neg Bool.false_ne_true, if_pos hc]

theorem emitted_owned (hc : c.type.isContainer = true) (hb : c.bval ≠ []) : emitted bytes (.mk c kids) = c.bval := by
  have hcomp : c.type ≠ .computed := fun hn => by rw [hn] at hc; cases hc
  unfold emitted
  rw [hp, if_neg Bool.false_ne_true, if_neg hcomp, if_pos hc, if_pos hb]

theorem emitted_kids (hc : c.type.isContainer = true) (hb : c.bval = []) :
    emitted bytes (.mk c kids) = emittedAll bytes kids := by
  have hcomp : c.type ≠ .computed := fun hn => by rw [hn] at hc; cases hc
  unfold emitted
  rw [hp, if_neg Bool.false_ne_true, if_neg hcomp, if_pos hc, if_neg (not_not.2 hb)]

theorem emitted_raw (hr : c.type = .bytes ∨ c.type = .string) : emitted bytes (.mk c kids) = c.bval := by
  unfold emitted
  rcases hr with hr | hr <;> rw [hp, hr] <;> rfl

theorem emitted_fixed (hc : c.type ≠ .computed) (hcont : ¬(c.type.isContainer = true))
    (hr : ¬(c.type = .bytes ∨ c.type = .string)) : emitted bytes (.mk c kids) = fixedLeaf c.width c := by
  unfold emitted
  rw [hp, if_neg Bool.false_ne_true, if_neg hc, if_neg hcont, if_neg hr]

theorem patched_owned (hc : c.type.isContainer = true) (hb : c.bval ≠ []) (hs : c.startOffset < c.endOffset) :
    patched bytes (.mk c kids) = c.bval := by
  unfold patched
  rw [hp, if_neg Bool.false_ne_true, if_pos ⟨hb, hs, hc⟩]

theorem patched_kids {n : Node} {ns : List Node} (hb : c.bval = []) :
    patched bytes (.mk c (n :: ns)) = patchedAll bytes (n :: ns) := by
  rw [patched, hp, if_neg Bool.false_ne_true, if_neg fun hn => hn.1 hb]
  rfl

variable (hcont : ¬(c.type.isContainer = true))
include hcont

theorem patched_leaf : patched bytes (.mk c []) =
    if c.type = .computed then span bytes c
    else if c.type = .bytes ∨ c.type = .string then c.bval
    else if c.type.leafWidth = 0 then span bytes c
    else encodeLeaf c := by
  rw [patched, hp, if_neg Bool.false_ne_true, if_neg fun hn => hcont hn.2.2]

end

/-! ## What no change of length says -/

section

variable {c : Cell} {kids : List Node}

theorem changesLength_kids (h : changesLength (.mk c kids) = false) (hp : c.parsed = false) :
    c.resized = false ∧ anyChangesLength kids = false := by
  unfold changesLength at h
  rw [if_neg (by rw [hp]; decide)] at h
  cases hr : c.resized with
  | true => rw [if_pos hr] at h; cases h
  | false =>
    refine ⟨rfl, ?_⟩
    rw [if_neg (by rw [hr]; decide)] at h
    cases kids with
    | nil => rfl
    | cons n ns => exact h

/-- A leaf that is no longer described by its span. -/
theorem changesLength_leaf (h : changesLength (.mk c []) = false) (hp : c.parsed = false) :
    c.enc = .fixed ∧ (c.type ≠ .computed → c.startOffset < c.endOffset ∧
      (c.type = .bytes ∨ c.type = .string → c.bval.length = c.width)) := by
  obtain ⟨hr, -⟩ := changesLength_kids h hp
  unfold changesLength at h
  rw [if_neg (by rw [hp]; decide), if_neg (by rw [hr]; decide)] at h
  dsimp only at h
  by_cases hc : c.type = .computed
  · rw [if_pos hc] at h
    exact ⟨by simpa using h, fun hn => absurd hc hn⟩
  · rw [if_neg hc] at h
    split at h
    · cases h
    · rename_i hspan
      split at h
      · cases h
      · rename_i henc
        refine ⟨not_not.1 henc, fun _ => ⟨Nat.lt_of_not_le hspan, fun hb => ?_⟩⟩
        rw [if_pos hb] at h
        exact of_not_not (of_decide_eq_false h)

theorem anyChangesLength_cons {n : Node} {ns : List Node} (h : anyChangesLength (n :: ns) = false) :
    changesLength n = false ∧ anyChangesLength ns = false := Bool.or_eq_false_iff.1 h

end

mutual

theorem changesLength_every (n : Node) (h : changesLength n = false) :
    EveryEmitted (fun m => changesLength m = false) n := by
  cases n with
  | mk c kids => exact ⟨h, fun hp _ _ => changesLength_everyIn kids (changesLength_kids h hp).2⟩

theorem changesLength_everyIn (ns : List Node) (h : anyChangesLength ns = false) :
    EveryEmittedIn (fun m => changesLength m = false) ns := by
  cases ns with
  | nil => trivial
  | cons n ns =>
    obtain ⟨hn, hns⟩ := anyChangesLength_cons h
    exact ⟨changesLength_every n hn, changesLength_everyIn ns hns⟩

end

/-! ## The emitter -/

theorem length_fixedLeaf (w : Nat) (c : Cell) : (fixedLeaf w c).length = w := by
  unfold fixedLeaf
  rw [List.length_take, List.length_append, List.length_replicate]
  omega

/-- A sink that takes what it is given for bytes behind one another. -/
structure Sink.Appends {σ : Type} (k : Sink σ) (add : σ → List UInt8 → σ) : Prop where
  raw : ∀ out bs, k.raw out bs = add out bs
  fixed : ∀ out w c, k.fixed out w c = add out (fixedLeaf w c)
  nil : ∀ out, add out [] = out
  append : ∀ out xs ys, add (add out xs) ys = add out (xs ++ ys)

theorem collecting_appends : collecting.Appends (· ++ ·) :=
  ⟨fun _ _ => rfl, fun _ _ _ => rfl, List.append_nil, List.append_assoc⟩

theorem counting_appends : counting.Appends fun n bs => n + bs.length where
  raw _ _ := rfl
  fixed out w c := congrArg (out + ·) (length_fixedLeaf w c).symm
  nil := Nat.add_zero
  append out xs ys := by
    rw [List.length_append]
    exact Nat.add_assoc _ _ _

section

variable {σ : Type} {k : Sink σ} {add : σ → List UInt8 → σ} (hk : k.Appends add) (bytes : List UInt8)
include hk

mutual

/-- Where no length changes the emitter writes `emitted`. -/
theorem emitNode_eq (n : Node) (hlaid : EveryEmitted Laid n) (h : changesLength n = false) (path : String) (out : σ) :
    emitNode k (some bytes) path out n = .ok (add out (emitted bytes n)) := by
  cases n with
  | mk c kids =>
    unfold emitNode emitted
    cases hp : c.parsed with
    | true =>
      rw [if_pos rfl, if_pos rfl]
      by_cases hspan : c.startOffset < c.endOffset
      · rw [if_pos ⟨rfl, hspan⟩, hk.raw]
        rfl
      · rw [if_neg (fun hn => hspan hn.2)]
        have hempty : span bytes c = [] := by
          unfold span Cell.width bytesAt
          rw [Nat.sub_eq_zero_of_le (Nat.le_of_not_lt hspan), List.take_zero]
        rw [hempty, hk.nil]
    | false =>
      rw [if_neg Bool.false_ne_true, if_neg Bool.false_ne_true]
      by_cases hcont : c.type.isContainer = true
      · have hcomp : c.type ≠ .computed := fun hn => by rw [hn] at hcont; cases hcont
        rw [if_neg hcomp, if_neg hcomp, if_pos hcont, if_pos hcont]
        by_cases hb : c.bval = []
        · rw [if_neg (not_not.2 hb), if_neg (not_not.2 hb)]
          exact emitNodes_eq kids (hlaid.2 hp hcont hb) (changesLength_kids h hp).2 path 0 out
        · rw [if_pos hb, if_pos hb, hk.raw]
      · have hkids : kids = [] := hlaid.here.leaf (Bool.eq_false_iff.2 hcont)
        subst hkids
        obtain ⟨henc, hleaf⟩ := changesLength_leaf h hp
        by_cases hcomp : c.type = .computed
        · rw [if_pos hcomp, if_pos hcomp, henc, hk.nil]
        · obtain ⟨hspan, -⟩ := hleaf hcomp
          rw [if_neg hcomp, if_neg hcomp, if_neg hcont, if_neg hcont]
          by_cases hraw : c.type = .bytes ∨ c.type = .string
          · rw [if_pos hraw, if_pos hraw, hk.raw]
          · have hwidth : emitWidth c = c.width := if_pos hspan
            have hpos : c.width ≠ 0 := Nat.sub_ne_zero_of_lt hspan
            rw [if_neg hraw, if_neg hraw, henc, hwidth]
            dsimp only
            rw [if_neg hpos, hk.fixed]

theorem emitNodes_eq (ns : List Node) (hlaid : EveryEmittedIn Laid ns) (h : anyChangesLength ns = false) (path : String)
    (i : Nat) (out : σ) : emitNodes k (some bytes) path i out ns = .ok (add out (emittedAll bytes ns)) := by
  cases ns with
  | nil =>
    unfold emitNodes emittedAll
    rw [hk.nil]
  | cons n ns =>
    obtain ⟨hn, hns⟩ := anyChangesLength_cons h
    unfold emitNodes emittedAll
    rw [emitNode_eq n hlaid.1 hn, ← hk.append]
    exact emitNodes_eq ns hlaid.2 hns path (i + 1) _

end

end

theorem emittedSize_eq (bytes : List UInt8) {n : Node} (hlaid : EveryEmitted Laid n) (h : changesLength n = false) :
    emittedSize (some bytes) n = .ok (emitted bytes n).length := by
  rw [emittedSize, emitNode_eq counting_appends bytes n hlaid h, Nat.zero_add]

/-! ## Lengths -/

/-- A node of a tree laid out within the source, under which no length changes. -/
structure Steady (bytes : List UInt8) (n : Node) : Prop where
  laid : Laid n
  same : changesLength n = false
  inside : n.cell.startOffset = n.cell.endOffset ∨ n.cell.endOffset ≤ bytes.length

theorem Tiles.le {ns : List Node} {pos stop : Nat} (h : Tiles pos ns stop) : pos ≤ stop := by
  induction ns generalizing pos with
  | nil => exact Nat.le_of_eq h
  | cons n ns ih =>
    obtain ⟨hstart, hspan, hrest⟩ := h
    have := ih hrest
    omega

theorem length_span {bytes : List UInt8} {n : Node} (h : Steady bytes n) :
    (span bytes n.cell).length = n.cell.width := by
  have := h.inside
  have := h.laid.span
  unfold span Cell.width bytesAt
  rw [List.length_take, List.length_drop]
  omega

/-- What tiles a span within the source lies within it. -/
theorem inside_of_tiles {len : Nat} {ns : List Node} {pos stop : Nat} (h : Tiles pos ns stop)
    (hin : pos = stop ∨ stop ≤ len) : ∀ n ∈ ns, n.cell.startOffset = n.cell.endOffset ∨ n.cell.endOffset ≤ len := by
  induction ns generalizing pos with
  | nil => exact fun _ hn => (nomatch hn)
  | cons m ms ih =>
    obtain ⟨hstart, hspan, hrest⟩ := h
    have hle := hrest.le
    intro n hn
    rcases List.mem_cons.1 hn with rfl | hn
    · omega
    · exact ih hrest (by omega) n hn

mutual

theorem steady_every (bytes : List UInt8) (n : Node) (hlaid : EveryEmitted Laid n) (h : changesLength n = false)
    (hin : n.cell.startOffset = n.cell.endOffset ∨ n.cell.endOffset ≤ bytes.length) :
    EveryEmitted (Steady bytes) n := by
  cases n with
  | mk c kids =>
    refine ⟨⟨hlaid.here, h, hin⟩, fun hp hc hb => ?_⟩
    obtain ⟨hr, hkids⟩ := changesLength_kids h hp
    refine steady_everyIn bytes kids (hlaid.2 hp hc hb) hkids ?_
    cases hrun : c.bitsContainer with
    | true => exact fun k hk => Or.inl (hlaid.here.entries hrun k hk).2.1
    | false => exact inside_of_tiles (hlaid.here.tiles hc hrun hr) hin

theorem steady_everyIn (bytes : List UInt8) (ns : List Node) (hlaid : EveryEmittedIn Laid ns)
    (h : anyChangesLength ns = false)
    (hin : ∀ n ∈ ns, n.cell.startOffset = n.cell.endOffset ∨ n.cell.endOffset ≤ bytes.length) :
    EveryEmittedIn (Steady bytes) ns := by
  cases ns with
  | nil => trivial
  | cons n ns =>
    obtain ⟨hn, hns⟩ := anyChangesLength_cons h
    exact ⟨steady_every bytes n hlaid.1 hn (hin n List.mem_cons_self),
      steady_everyIn bytes ns hlaid.2 hns fun m hm => hin m (List.mem_cons_of_mem _ hm)⟩

end

section

variable {bytes : List UInt8}

theorem span_empty {c : Cell} (h : c.startOffset = c.endOffset) : span bytes c = [] := by
  unfold span Cell.width bytesAt
  rw [h, Nat.sub_self, List.take_zero]

/-- Entries of a run are not written. -/
theorem Entry.emitted {n : Node} (h : Entry n) : emitted bytes n = [] := by
  cases n with
  | mk c kids =>
    have hcomp : c.type = .computed := h.1
    unfold Zcow.emitted
    by_cases hp : c.parsed = true
    · rw [if_pos hp]
      exact span_empty h.2.1
    · rw [if_neg hp, if_pos hcomp]

theorem emittedAll_entries {ns : List Node} (h : ∀ n ∈ ns, Entry n) : emittedAll bytes ns = [] := by
  induction ns with
  | nil => rfl
  | cons n ns ih =>
    unfold emittedAll
    rw [(h n List.mem_cons_self).emitted, ih fun m hm => h m (List.mem_cons_of_mem _ hm), List.append_nil]

/-- Every node in as many bytes as its span has. -/
def Fills (bytes : List UInt8) (n : Node) : Prop := (emitted bytes n).length = n.cell.width

/-- What tiles a span fills it if each part does. -/
theorem length_emittedAll {ns : List Node} {pos stop : Nat} (h : Tiles pos ns stop)
    (hfills : EveryEmittedIn (Fills bytes) ns) : (emittedAll bytes ns).length = stop - pos := by
  induction ns generalizing pos with
  | nil =>
    rw [show pos = stop from h, Nat.sub_self]
    rfl
  | cons n ns ih =>
    obtain ⟨hstart, hspan, hrest⟩ := h
    have hle := hrest.le
    have hn : (emitted bytes n).length = n.cell.endOffset - n.cell.startOffset := hfills.1.here
    unfold emittedAll
    rw [List.length_append, hn, ih hrest hfills.2]
    omega

/-- A node fills its span exactly where it is `Sized`, if what is emitted under it does. -/
theorem fills_iff {c : Cell} {kids : List Node} (h : Steady bytes (.mk c kids))
    (hkids : c.parsed = false → c.type.isContainer = true → c.bval = [] → EveryEmittedIn (Fills bytes) kids) :
    Fills bytes (.mk c kids) ↔ Sized (.mk c kids) := by
  have hle : c.startOffset ≤ c.endOffset := h.laid.span
  have hzero : 0 = c.width ↔ c.startOffset = c.endOffset := by
    unfold Cell.width
    omega
  unfold Fills emitted
  cases hp : c.parsed with
  | true =>
    rw [if_pos rfl]
    have hnot : ¬(c.parsed = false) := by rw [hp]; decide
    exact iff_of_true (length_span h) ⟨fun h => absurd h hnot, fun h => absurd h hnot, fun h => absurd h hnot⟩
  | false =>
    rw [if_neg Bool.false_ne_true]
    by_cases hcomp : c.type = .computed
    · have hcont : ¬(c.type.isContainer = true) := by rw [hcomp]; decide
      rw [if_pos hcomp]
      exact hzero.trans ⟨fun he => ⟨fun _ _ => he, fun _ hc => absurd hc hcont, fun _ hc => absurd hc hcont⟩,
        fun hs => hs.computed hp hcomp⟩
    · rw [if_neg hcomp]
      by_cases hcont : c.type.isContainer = true
      · rw [if_pos hcont]
        by_cases hb : c.bval = []
        · rw [if_neg (not_not.2 hb)]
          have hr := (changesLength_kids h.same hp).1
          cases hrun : c.bitsContainer with
          | true =>
            have hentries : ∀ k ∈ kids, Entry k := h.laid.entries hrun
            rw [emittedAll_entries hentries]
            exact hzero.trans ⟨fun he => ⟨fun _ hc => absurd hc hcomp, fun _ _ hn => absurd hb hn, fun _ _ _ _ => he⟩,
              fun hs => hs.run hp hcont hrun hb⟩
          | false =>
            have hrun' : ¬(c.bitsContainer = true) := by rw [hrun]; decide
            refine iff_of_true (length_emittedAll (h.laid.tiles hcont hrun hr) (hkids hp hcont hb)) ?_
            exact ⟨fun _ hc => absurd hc hcomp, fun _ _ hn => absurd hb hn, fun _ _ hn => absurd hn hrun'⟩
        · rw [if_pos hb]
          exact ⟨fun hl => ⟨fun _ hc => absurd hc hcomp, fun _ _ _ => hl, fun _ _ _ hn => absurd hn hb⟩,
            fun hs => hs.owned hp hcont hb⟩
      · have hempty : kids = [] := h.laid.leaf (Bool.eq_false_iff.2 hcont)
        subst hempty
        rw [if_neg hcont]
        refine iff_of_true ?_ ⟨fun _ hc => absurd hc hcomp, fun _ hc => absurd hc hcont, fun _ hc => absurd hc hcont⟩
        by_cases hraw : c.type = .bytes ∨ c.type = .string
        · rw [if_pos hraw]
          exact ((changesLength_leaf h.same hp).2 hcomp).2 hraw
        · rw [if_neg hraw]
          exact length_fixedLeaf c.width c

mutual

/-- Lengths agree in a tree exactly where every node emitted is `Sized`. -/
theorem everyFills_iff (n : Node) (h : EveryEmitted (Steady bytes) n) :
    EveryEmitted (Fills bytes) n ↔ EveryEmitted Sized n := by
  cases n with
  | mk c kids =>
    have ih : c.parsed = false → c.type.isContainer = true → c.bval = [] →
        (EveryEmittedIn (Fills bytes) kids ↔ EveryEmittedIn Sized kids) :=
      fun hp hc hb => everyFillsIn_iff kids (h.2 hp hc hb)
    constructor
    · intro hf
      exact ⟨(fills_iff h.here hf.2).1 hf.1, fun hp hc hb => (ih hp hc hb).1 (hf.2 hp hc hb)⟩
    · intro hs
      have hkids := fun hp hc hb => (ih hp hc hb).2 (hs.2 hp hc hb)
      exact ⟨(fills_iff h.here hkids).2 hs.1, hkids⟩

theorem everyFillsIn_iff (ns : List Node) (h : EveryEmittedIn (Steady bytes) ns) :
    EveryEmittedIn (Fills bytes) ns ↔ EveryEmittedIn Sized ns := by
  cases ns with
  | nil => exact Iff.rfl
  | cons n ns => exact and_congr (everyFills_iff n h.1) (everyFillsIn_iff ns h.2)

end

end

/-! ## The patched bytes -/

theorem length_wordToBytes (n : Nat) (little : Bool) (w : Nat) : (wordToBytes n little w).length = n := by
  cases little <;> simp [wordToBytes]

/-- A leaf of a fixed width is encoded in it; of another nothing is. -/
theorem length_encodeLeaf (c : Cell) : (encodeLeaf c).length = c.type.leafWidth := by
  unfold encodeLeaf encodeFloat encodeInt CaptureType.isFloat CaptureType.leafWidth
  cases c.type <;> simp [CaptureType.floatLayout, CaptureType.intLayout, length_wordToBytes]

section

variable {bytes : List UInt8}

theorem Entry.patched {n : Node} (h : Entry n) : patched bytes n = [] := by
  cases n with
  | mk c kids =>
    have hcomp : c.type = .computed := h.1
    have hspan : c.startOffset = c.endOffset := h.2.1
    have hkids : kids = [] := h.2.2
    subst hkids
    unfold Zcow.patched
    by_cases hp : c.parsed = true
    · rw [if_pos hp]
      exact span_empty hspan
    · rw [if_neg hp, if_neg (by omega)]
      dsimp only
      rw [if_pos hcomp, span_empty hspan]

theorem patchedAll_entries {ns : List Node} (h : ∀ n ∈ ns, Entry n) : patchedAll bytes ns = [] := by
  induction ns with
  | nil => rfl
  | cons n ns ih =>
    unfold patchedAll
    rw [(h n List.mem_cons_self).patched, ih fun m hm => h m (List.mem_cons_of_mem _ hm), List.append_nil]

/-- A leaf that patching and emitting both write. -/
theorem encodeLeaf_fixed {c : Cell} (h : c.width = c.type.leafWidth) : fixedLeaf c.width c = encodeLeaf c := by
  have hlen : (encodeLeaf c).length = c.width := (length_encodeLeaf c).trans h.symm
  unfold fixedLeaf
  rw [List.take_append_of_le_length (Nat.le_of_eq hlen.symm), List.take_of_length_le (Nat.le_of_eq hlen)]

theorem external_of_leafWidth {t : CaptureType} (hw : t.leafWidth = 0) (hcont : ¬(t.isContainer = true))
    (hcomp : t ≠ .computed) (hraw : ¬(t = .bytes ∨ t = .string)) : t = .external := by
  cases t <;> simp_all [CaptureType.leafWidth, CaptureType.isContainer, CaptureType.intLayout, CaptureType.floatLayout]

/-- Not an external leaf: nothing is asked of its bytes. -/
theorem blank_of_ne {c : Cell} {kids : List Node} (h : c.type ≠ .external) : Blank bytes (.mk c kids) :=
  fun _ he => absurd he h

/-- An external leaf is emitted as zeros and patched with nothing. -/
theorem external_iff {c : Cell} (hp : c.parsed = false) (hext : c.type = .external) :
    fixedLeaf c.width c = span bytes c ↔ Blank bytes (.mk c []) := by
  have hleaf : encodeLeaf c = [] := List.eq_nil_of_length_eq_zero ((length_encodeLeaf c).trans (by rw [hext]; rfl))
  have hzeros : fixedLeaf c.width c = List.replicate c.width 0 := by
    unfold fixedLeaf
    rw [hleaf, List.nil_append, List.take_of_length_le (Nat.le_of_eq List.length_replicate)]
  rw [hzeros]
  exact ⟨fun h _ _ => h.symm, fun h => (h hp hext).symm⟩

mutual

/-- Where lengths agree, patching and emitting a node differ in its external leaves only. -/
theorem patched_iff (n : Node) (h : EveryEmitted (Steady bytes) n) (hs : EveryEmitted Sized n) :
    (patched bytes n).length = (emitted bytes n).length ∧
      (emitted bytes n = patched bytes n ↔ EveryEmitted (Blank bytes) n) := by
  cases n with
  | mk c kids =>
    cases hp : c.parsed with
    | true =>
      have hnot : ¬(c.parsed = false) := by rw [hp]; decide
      rw [emitted_parsed hp, patched_parsed hp]
      exact ⟨rfl, iff_of_true rfl ⟨fun h => absurd h hnot, fun h => absurd h hnot⟩⟩
    | false =>
      by_cases hcont : c.type.isContainer = true
      · have hcomp : c.type ≠ .computed := fun hn => by rw [hn] at hcont; cases hcont
        have hext : c.type ≠ .external := fun hn => by rw [hn] at hcont; cases hcont
        by_cases hb : c.bval = []
        · rw [emitted_kids hp hcont hb]
          cases kids with
          | nil =>
            have hspan := ((changesLength_leaf h.here.same hp).2 hcomp).1
            cases hrun : c.bitsContainer with
            | true => exact absurd (hs.here.run hp hcont hrun hb) (Nat.ne_of_lt hspan)
            | false =>
              exact absurd (h.here.laid.tiles hcont hrun (changesLength_kids h.here.same hp).1) (Nat.ne_of_lt hspan)
          | cons n ns =>
            rw [patched_kids hp hb]
            obtain ⟨hlen, hiff⟩ := patchedAll_iff (n :: ns) (h.2 hp hcont hb) (hs.2 hp hcont hb)
            exact ⟨hlen, hiff.trans ⟨fun hk => ⟨blank_of_ne hext, fun _ _ _ => hk⟩, fun hk => hk.2 hp hcont hb⟩⟩
        · have hlen : c.bval.length = c.width := hs.here.owned hp hcont hb
          have hspan : c.startOffset < c.endOffset := by
            have := List.length_pos_iff.2 hb
            unfold Cell.width at hlen
            omega
          rw [emitted_owned hp hcont hb, patched_owned hp hcont hb hspan]
          exact ⟨rfl, iff_of_true rfl ⟨blank_of_ne hext, fun _ _ hn => absurd hn hb⟩⟩
      · have hkids : kids = [] := h.here.laid.leaf (Bool.eq_false_iff.2 hcont)
        subst hkids
        have hblank : EveryEmitted (Blank bytes) (.mk c []) ↔ Blank bytes (.mk c []) :=
          ⟨fun hn => hn.1, fun hn => ⟨hn, fun _ hc => absurd hc hcont⟩⟩
        rw [hblank, patched_leaf hp hcont]
        by_cases hcomp : c.type = .computed
        · have hext : c.type ≠ .external := by rw [hcomp]; decide
          have hspan : c.startOffset = c.endOffset := hs.here.computed hp hcomp
          rw [emitted_computed hp hcomp, if_pos hcomp, span_empty hspan]
          exact ⟨rfl, iff_of_true rfl (blank_of_ne hext)⟩
        · rw [if_neg hcomp]
          by_cases hraw : c.type = .bytes ∨ c.type = .string
          · have hext : c.type ≠ .external := by rintro hn; rw [hn] at hraw; revert hraw; decide
            rw [emitted_raw hp hraw, if_pos hraw]
            exact ⟨rfl, iff_of_true rfl (blank_of_ne hext)⟩
          · rw [emitted_fixed hp hcomp hcont hraw, if_neg hraw]
            by_cases hw : c.type.leafWidth = 0
            · rw [if_pos hw]
              exact ⟨(length_span h.here).trans (length_fixedLeaf c.width c).symm,
                external_iff hp (external_of_leafWidth hw hcont hcomp hraw)⟩
            · have hext : c.type ≠ .external := fun hn => hw (by rw [hn]; rfl)
              have hwidth : c.width = c.type.leafWidth :=
                h.here.laid.width hw ((changesLength_leaf h.here.same hp).2 hcomp).1
              rw [if_neg hw, encodeLeaf_fixed hwidth]
              exact ⟨rfl, iff_of_true rfl (blank_of_ne hext)⟩

theorem patchedAll_iff (ns : List Node) (h : EveryEmittedIn (Steady bytes) ns) (hs : EveryEmittedIn Sized ns) :
    (patchedAll bytes ns).length = (emittedAll bytes ns).length ∧
      (emittedAll bytes ns = patchedAll bytes ns ↔ EveryEmittedIn (Blank bytes) ns) := by
  cases ns with
  | nil => exact ⟨rfl, iff_of_true rfl trivial⟩
  | cons n ns =>
    obtain ⟨hlen, hiff⟩ := patched_iff n h.1 hs.1
    obtain ⟨hlens, hiffs⟩ := patchedAll_iff ns h.2 hs.2
    unfold emittedAll patchedAll
    refine ⟨by rw [List.length_append, List.length_append, hlen, hlens], ?_⟩
    constructor
    · intro heq
      obtain ⟨hn, hns⟩ := List.append_inj heq hlen.symm
      exact ⟨hiff.1 hn, hiffs.1 hns⟩
    · intro hk
      rw [hiff.2 hk.1, hiffs.2 hk.2]

end

/-! ## The canvas -/

/-- A write over a stretch of the same length. -/
theorem patchAt_mid {before mid after bs : List UInt8} {i : Nat} (hi : before.length = i) (hbs : bs.length = mid.length) :
    patchAt (before ++ mid ++ after) i bs = before ++ bs ++ after := by
  have htake : (before ++ mid ++ after).take i = before := by rw [List.append_assoc, ← hi, List.take_left]
  have hdrop : (before ++ mid ++ after).drop (i + bs.length) = after := by
    rw [← hi, hbs, ← List.length_append, List.drop_left]
  rw [patchAt, htake, hdrop]

/-- Two stretches next to each other. -/
theorem bytesAt_add (bytes : List UInt8) (pos m n : Nat) :
    bytesAt bytes pos (m + n) = bytesAt bytes pos m ++ bytesAt bytes (pos + m) n := by
  unfold bytesAt
  rw [List.take_add, List.drop_drop]

theorem patchNode_entry {n : Node} (h : Entry n) (base : Nat) (out : List UInt8) : patchNode base out n = out := by
  cases n with
  | mk c kids =>
    have hcomp : c.type = .computed := h.1
    have hspan : c.startOffset = c.endOffset := h.2.1
    have hkids : kids = [] := h.2.2
    subst hkids
    unfold patchNode
    by_cases hp : c.parsed = true
    · rw [if_pos hp]
    · rw [if_neg hp, if_neg (by omega)]
      dsimp only
      rw [if_pos hcomp]

theorem patchNodes_entries {ns : List Node} (h : ∀ n ∈ ns, Entry n) (base : Nat) (out : List UInt8) :
    patchNodes base out ns = out := by
  induction ns with
  | nil => rfl
  | cons n ns ih =>
    rw [patchNodes, ih fun m hm => h m (List.mem_cons_of_mem _ hm), patchNode_entry (h n List.mem_cons_self)]

mutual

/-- Patching a node writes `patched` over its span, and nothing else. -/
theorem patchNode_eq (n : Node) (h : EveryEmitted (Steady bytes) n) (hs : EveryEmitted Sized n) {base : Nat}
    {before after : List UInt8} (hbase : base ≤ n.cell.startOffset)
    (hbefore : before.length = n.cell.startOffset - base) :
    patchNode base (before ++ span bytes n.cell ++ after) n = before ++ patched bytes n ++ after := by
  have hlen := length_span h.here
  cases n with
  | mk c kids =>
    simp only [Node.cell_mk] at hlen hbase hbefore ⊢
    unfold patchNode
    cases hp : c.parsed with
    | true =>
      rw [if_pos rfl, patched_parsed hp]
    | false =>
      rw [if_neg Bool.false_ne_true]
      by_cases hcont : c.type.isContainer = true
      · have hcomp : c.type ≠ .computed := fun hn => by rw [hn] at hcont; cases hcont
        by_cases hb : c.bval = []
        · rw [if_neg fun hn => hn.1 hb]
          cases kids with
          | nil =>
            have hspan := ((changesLength_leaf h.here.same hp).2 hcomp).1
            cases hrun : c.bitsContainer with
            | true => exact absurd (hs.here.run hp hcont hrun hb) (Nat.ne_of_lt hspan)
            | false =>
              exact absurd (h.here.laid.tiles hcont hrun (changesLength_kids h.here.same hp).1) (Nat.ne_of_lt hspan)
          | cons n ns =>
            rw [patched_kids hp hb]
            show patchNodes base _ (n :: ns) = _
            cases hrun : c.bitsContainer with
            | true =>
              have hentries : ∀ k ∈ n :: ns, Entry k := h.here.laid.entries hrun
              have hspan : c.startOffset = c.endOffset := hs.here.run hp hcont hrun hb
              rw [patchNodes_entries hentries, patchedAll_entries hentries, span_empty hspan]
            | false =>
              exact patchNodes_eq (n :: ns) (h.2 hp hcont hb) (hs.2 hp hcont hb)
                (h.here.laid.tiles hcont hrun (changesLength_kids h.here.same hp).1) hbase hbefore
        · have hown : c.bval.length = c.width := hs.here.owned hp hcont hb
          have hspan : c.startOffset < c.endOffset := by
            have := List.length_pos_iff.2 hb
            unfold Cell.width at hown
            omega
          rw [if_pos ⟨hb, hspan, hcont⟩, patched_owned hp hcont hb hspan,
            patchAt_mid hbefore (hown.trans hlen.symm)]
      · have hkids : kids = [] := h.here.laid.leaf (Bool.eq_false_iff.2 hcont)
        subst hkids
        rw [if_neg fun hn => hcont hn.2.2, patched_leaf hp hcont]
        dsimp only
        by_cases hcomp : c.type = .computed
        · rw [if_pos hcomp, if_pos hcomp]
        · obtain ⟨hspan, hraw⟩ := (changesLength_leaf h.here.same hp).2 hcomp
          rw [if_neg hcomp, if_neg hcomp]
          by_cases hr : c.type = .bytes ∨ c.type = .string
          · rw [if_pos hr, if_pos hr, patchAt_mid hbefore ((hraw hr).trans hlen.symm)]
          · rw [if_neg hr, if_neg hr]
            by_cases hw : c.type.leafWidth = 0
            · have hleaf : encodeLeaf c = [] := List.eq_nil_of_length_eq_zero ((length_encodeLeaf c).trans hw)
              rw [if_pos hw, hleaf]
              unfold patchAt
              simp
            · have hfit : (encodeLeaf c).length = (span bytes c).length :=
                (length_encodeLeaf c).trans ((h.here.laid.width hw hspan).symm.trans hlen.symm)
              rw [if_neg hw, patchAt_mid hbefore hfit]

theorem patchNodes_eq (ns : List Node) (h : EveryEmittedIn (Steady bytes) ns) (hs : EveryEmittedIn Sized ns)
    {pos stop base : Nat} {before after : List UInt8} (htiles : Tiles pos ns stop) (hbase : base ≤ pos)
    (hbefore : before.length = pos - base) :
    patchNodes base (before ++ bytesAt bytes pos (stop - pos) ++ after) ns = before ++ patchedAll bytes ns ++ after := by
  cases ns with
  | nil =>
    rw [show stop - pos = 0 by rw [show pos = stop from htiles, Nat.sub_self]]
    rfl
  | cons n ns =>
    obtain ⟨hstart, hspan, hrest⟩ := htiles
    have hle := hrest.le
    have hlen : (span bytes n.cell).length = n.cell.width := length_span h.1.here
    have hsplit : bytesAt bytes pos (stop - pos) =
        span bytes n.cell ++ bytesAt bytes n.cell.endOffset (stop - n.cell.endOffset) := by
      have hwidth : stop - pos = n.cell.width + (stop - n.cell.endOffset) := by
        unfold Cell.width
        omega
      have hnext : pos + n.cell.width = n.cell.endOffset := by
        unfold Cell.width
        omega
      rw [hwidth, bytesAt_add, hnext, ← hstart]
      rfl
    have hbefore' : (before ++ span bytes n.cell).length = n.cell.endOffset - base := by
      rw [List.length_append, hbefore, hlen]
      unfold Cell.width
      omega
    rw [patchNodes, hsplit, ← List.append_assoc before,
      patchNodes_eq ns h.2 hs.2 hrest (by omega) hbefore', List.append_assoc (before ++ span bytes n.cell),
      patchNode_eq n h.1 hs.1 (by omega) (by omega)]
    rw [patchedAll, List.append_assoc, List.append_assoc, List.append_assoc]

end

/-! ## The two serializers -/

/-- What `emit_document` makes of a document by patching. -/
def patchDocument (bytes : List UInt8) (root : Node) : List UInt8 :=
  patchNode root.cell.startOffset (span bytes root.cell) root

/-- Patching yields what emitting does, and every node is emitted in as many bytes as its span has. -/
structure InPlace (bytes : List UInt8) (root : Node) : Prop where
  same : emitNode collecting (some bytes) "" [] root = .ok (patchDocument bytes root)
  sizes : EveryEmitted (fun n => emittedSize (some bytes) n = .ok n.cell.width) root

end

variable {bytes : List UInt8} {root : Node}

theorem emittedSize_iff {n : Node} (hlaid : EveryEmitted Laid n) (h : changesLength n = false) :
    emittedSize (some bytes) n = .ok n.cell.width ↔ Fills bytes n := by
  rw [emittedSize_eq bytes hlaid h, Except.ok.injEq]
  exact Iff.rfl

/-- A leaf laid out by its type. -/
theorem laid_leaf {c : Cell} (hspan : c.startOffset ≤ c.endOffset) (hcont : c.type.isContainer = false)
    (hrun : c.bitsContainer = false) (hw : c.width = c.type.leafWidth) : EveryEmitted Laid (.mk c []) := by
  refine ⟨⟨hspan, fun hc => ?_, fun hb => ?_, fun _ => rfl, fun _ _ => hw⟩, fun _ hc => ?_⟩
  · exact absurd hc (Bool.eq_false_iff.1 hcont)
  · exact absurd hb (Bool.eq_false_iff.1 hrun)
  · exact absurd hc (Bool.eq_false_iff.1 hcont)

/-- Neither a varint, nor bytes put in a container, nor a bit run. -/
theorem sized_plain {c : Cell} {kids : List Node} (hcomp : c.type ≠ .computed) (hb : c.bval = [])
    (hrun : c.bitsContainer = false) : Sized (.mk c kids) :=
  ⟨fun _ hc => absurd hc hcomp, fun _ _ hn => absurd hb hn, fun _ _ hr => absurd hr (Bool.eq_false_iff.1 hrun)⟩

def namedCell (name : String) (type : CaptureType) (start stop : Nat) (parsed : Bool) : Cell :=
  { (default : Cell) with name, type, startOffset := start, endOffset := stop, parsed }

/-- `struct { n: u8, m: u8 }` over `[5, 0xab]`, with 7 written to `n`. -/
def writtenByte : Node :=
  .mk (namedCell "r" .struct 0 2 false)
    [.mk { namedCell "n" .uInt8 0 1 false with ival := 7 } [], .mk (namedCell "m" .uInt8 1 2 true) []]

/-- `struct { n: u8, flags: bits u8 { x: 4 } }` over `[5, 0xab]`, after the run was taken in an edit to read `x`. -/
def takenRun : Node :=
  .mk (namedCell "r" .struct 0 2 false)
    [.mk (namedCell "n" .uInt8 0 1 true) [],
      .mk { namedCell "flags" .struct 1 2 false with bitsContainer := true }
        [.mk { namedCell "x" .computed 2 2 true with computedValue := some (.int 11), bits := ⟨0, 4, false, true⟩ } []]]

end Bbq.Zcow
