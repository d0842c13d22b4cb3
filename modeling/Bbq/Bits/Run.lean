import Bbq.Cek.Machine
import Bbq.Zcow.Bits

/-!
# A bit field as the CEK machine records it

The run of entries that `compile_bitfield` (`backends/cek/bbq.ddcg:775-809`) makes of a bit field, the captures
`ExtractBitsNode::invoke` (`backends/cek/Machine.cpp:1433-1486`) and the two stores after it leave in the scope, and
the node that scope becomes.

* `Run` is a bit field `Sema` lets through (`frontend/Sema.cpp:382-409`).
* `Holds`: a node of a document is such a run, its bytes whatever they are.
-/

namespace Bbq.Bits

open Cek (PrimitiveInfo Machine Program Kont Leaf)
open Lib.BitRun Zcow

/-- A bit field: entries of one container, their widths summing to it. -/
structure Run where
  container : PrimitiveInfo
  entries : List BitfieldEntry
  integer : container.kind = .integer
  fixed : container.encoding = .fixed
  positive : ∀ e ∈ entries, 0 < e.width
  named : ∀ e ∈ entries, e.name ≠ ""
  distinct : (entries.map BitfieldEntry.name).Nodup
  total : (entries.map BitfieldEntry.width).sum = 8 * container.byteCount

namespace Run

/-- The entries with `offset_before`, from `offset` on. -/
def offsets : (offset : Nat) → List BitfieldEntry → List (Nat × BitfieldEntry)
  | _, [] => []
  | offset, e :: es => (offset, e) :: offsets (offset + e.width) es

/-- The entries with the bits that come before them. -/
def placed (run : Run) : List (Nat × BitfieldEntry) := offsets 0 run.entries

/-- `msb_first`, by the live byte order. -/
def msbFirst (run : Run) (littleEndian : Bool) : Bool :=
  run.container.endian == .big || run.container.endian == .default && !littleEndian

/-- The tag of an entry. -/
def tag (run : Run) (msbFirst : Bool) (offset : Nat) (e : BitfieldEntry) : BitsAt :=
  let shift := Machine.bitsShift run.container e.width offset msbFirst
  ⟨shift % 256, (shift + e.width) % 256, e.sign == .signed, true⟩

end Run

/-! ## Recording -/

section

variable (p : Program)

/-- The value `ExtractBits` leaves in `ac` for an entry. -/
def extracted (run : Run) (m : Machine) (offset : Nat) (e : BitfieldEntry) : Int64 :=
  Machine.bitsValue (m.readPrimitive p run.container)
    (Machine.bitsShift run.container e.width offset (run.msbFirst m.littleEndian)) e.width (e.sign == .signed)

/-- The machine once an entry's konts have run: the extraction and the stores after it. A `where` between two
entries only decides whether the second is reached. -/
def recordEntry (run : Run) (offset : Nat) (e : BitfieldEntry) (m : Machine) : Machine :=
  let extract : Kont :=
    .extractBits run.container e.width offset (e.sign == .signed) (Cek.fieldDest e.name .halt)
  Machine.run p { m with control := .run extract } (if e.name = "_" then 2 else 3)

/-- The machine at the end of the run's entries. -/
def recordEntries (run : Run) (es : List (Nat × BitfieldEntry)) (m : Machine) : Machine :=
  es.foldl (fun m (offset, e) => recordEntry p run offset e m) m

/-- The machine with the scope of a field opened. -/
def openField (name : Option String) (m : Machine) : Machine :=
  { m with builder := m.builder.beginStruct name m.pos }

/-- The node a field of the run's type becomes: a scope opened, the entries recorded, the cursor moved past the
container and the scope closed. -/
def recordedField (run : Run) (name : Option String) (m : Machine) : Option Node :=
  let inside := recordEntries p run run.placed (openField name m)
  (inside.builder.closeScope (Cek.sizeAdd inside.pos run.container.byteCount)).current.getLast?

/-- The document of a rule that is the run. -/
def recordedRoot (run : Run) (m : Machine) : Option Node :=
  let inside := recordEntries p run run.placed m
  inside.builder.finish true (Cek.sizeAdd inside.pos run.container.byteCount)

end

/-! ## What is recorded -/

section

variable {p : Program} {run : Run} {m : Machine} {offset : Nat} {e : BitfieldEntry}

/-- The container is within the window. -/
def Fits (p : Program) (run : Run) (m : Machine) : Prop :=
  m.pos + run.container.byteCount ≤ m.effectiveEnd p ∧ m.effectiveEnd p ≤ p.bytes.length

/-- The node an entry is captured as. -/
def entryNode (p : Program) (run : Run) (m : Machine) (offset : Nat) (e : BitfieldEntry) : Node :=
  .mk
    { (default : Cell) with
      name := some e.name, type := .computed, startOffset := m.pos
      endOffset := m.pos + run.container.byteCount
      computedValue := some (.int (extracted p run m offset e).toInt)
      bits := run.tag (run.msbFirst m.littleEndian) offset e }
    []

/-- What the stores of an entry do to a builder. -/
def recordOn (p : Program) (run : Run) (m : Machine) (b : Builder) (offset : Nat) (e : BitfieldEntry) : Builder :=
  let b := b.scopeIsBitsRun (run.msbFirst m.littleEndian)
  if e.name = "_" then b else b.clearPendingTag.attach (entryNode p run m offset e)

theorem Fits.sizeAdd (h : Fits p run m) :
    Cek.sizeAdd m.pos run.container.byteCount = m.pos + run.container.byteCount := by
  have hsmall := p.small
  obtain ⟨hfit, hend⟩ := h
  rw [Cek.sizeAdd, Nat.mod_eq_of_lt]
  omega

/-- The extraction of an entry, as a turn of the machine. -/
theorem extract_step (hfit : Fits p run m) (k : Kont) :
    Machine.step p
        { m with control := .run (.extractBits run.container e.width offset (e.sign == .signed) k) } =
      { m with
        builder := m.builder.scopeIsBitsRun (run.msbFirst m.littleEndian)
        result := some (.capture (.mk
          { Leaf.carrier .computed m.pos (m.pos + run.container.byteCount)
              (some (.int (extracted p run m offset e).toInt)) with
            bits := run.tag (run.msbFirst m.littleEndian) offset e } []))
        control := .run k } := by
  have hin : ¬ m.pos + run.container.byteCount > m.effectiveEnd p := by
    have := hfit.1
    omega
  have hstop := hfit.sizeAdd
  simp only [Machine.step, Machine.exec, Machine.extractBits]
  rw [hstop]
  exact if_neg hin

/-- What recording an entry keeps of the machine. -/
structure SameSpot (p : Program) (m m' : Machine) : Prop where
  pos : m'.pos = m.pos
  littleEndian : m'.littleEndian = m.littleEndian
  effectiveEnd : m'.effectiveEnd p = m.effectiveEnd p

theorem SameSpot.refl (m : Machine) : SameSpot p m m := ⟨rfl, rfl, rfl⟩

theorem SameSpot.trans {m₁ m₂ m₃ : Machine} (h : SameSpot p m₁ m₂) (h' : SameSpot p m₂ m₃) : SameSpot p m₁ m₃ :=
  ⟨h'.pos.trans h.pos, h'.littleEndian.trans h.littleEndian, h'.effectiveEnd.trans h.effectiveEnd⟩

theorem SameSpot.fits {m' : Machine} (h : SameSpot p m m') (hfit : Fits p run m) : Fits p run m' := by
  rw [Fits, h.pos, h.effectiveEnd]
  exact hfit

theorem SameSpot.extracted_eq {m' : Machine} (h : SameSpot p m m') (offset : Nat) (e : BitfieldEntry) :
    extracted p run m' offset e = extracted p run m offset e := by
  rw [extracted, extracted, Machine.readPrimitive, Machine.readPrimitive, h.pos, h.littleEndian]

theorem SameSpot.recordOn_eq {m' : Machine} (h : SameSpot p m m') (b : Builder) (offset : Nat) (e : BitfieldEntry) :
    recordOn p run m' b offset e = recordOn p run m b offset e := by
  rw [recordOn, recordOn, entryNode, entryNode, h.extracted_eq, h.pos, h.littleEndian]

theorem recordEntry_eq (hfit : Fits p run m) (hname : e.name ≠ "") (htag : m.builder.pendingVariantTag = -1) :
    SameSpot p m (recordEntry p run offset e m) ∧
      (recordEntry p run offset e m).builder = recordOn p run m m.builder offset e := by
  have hnull : Cek.nullable e.name = some e.name := by
    rw [Cek.nullable, if_neg]
    simpa using hname
  have htag' : (m.builder.scopeIsBitsRun (run.msbFirst m.littleEndian)).pendingVariantTag = -1 := by
    rw [← htag]
    unfold Builder.scopeIsBitsRun Builder.modifyScope
    split <;> rfl
  unfold recordEntry recordOn
  by_cases h : e.name = "_"
  · rw [if_pos h, if_pos h, Machine.run, extract_step hfit, Cek.fieldDest, if_pos h]
    exact ⟨⟨rfl, rfl, rfl⟩, rfl⟩
  · rw [if_neg h, if_neg h, Machine.run, extract_step hfit, Cek.fieldDest, if_neg h, hnull]
    refine ⟨⟨rfl, rfl, rfl⟩, ?_⟩
    simp only [Machine.run, Machine.step, Machine.exec, Machine.capture, Machine.storeEnv, Machine.placeValue,
      Machine.go, Builder.addField, htag']
    rfl

/-- What is captured of an entry. -/
def entryKids (p : Program) (run : Run) (m : Machine) (x : Nat × BitfieldEntry) : List Node :=
  if x.2.name = "_" then [] else [entryNode p run m x.1 x.2]

/-- A scope marked as the run's. -/
def markRun (msbFirst : Bool) (c : Cell) : Cell := { c with bitsContainer := true, bitsMsbFirst := msbFirst }

/-- A builder with other open scopes. -/
def setStack (b : Builder) (stack : List Node) : Builder := { b with stack }

/-- A builder with other finished nodes, marked as the run's. -/
def setRoots (b : Builder) (msbFirst : Bool) (roots : List Node) : Builder :=
  { b with roots, rootBits := true, rootBitsMsbFirst := msbFirst }

/-- An entry recorded in an open scope. -/
theorem recordOn_scope {b : Builder} {c : Cell} {kids rest : List Node} (x : Nat × BitfieldEntry)
    (htag : b.pendingVariantTag = -1) :
    recordOn p run m (setStack b (.mk c kids :: rest)) x.1 x.2 =
      setStack b (.mk (markRun (run.msbFirst m.littleEndian) c) (kids ++ entryKids p run m x) :: rest) := by
  obtain ⟨stack, roots, tag, count, derives, determines, bits, msb⟩ := b
  subst htag
  unfold recordOn entryKids
  by_cases h : x.2.name = "_"
  · rw [if_pos h, if_pos h, List.append_nil]
    rfl
  · rw [if_neg h, if_neg h]
    rfl

/-- An entry recorded at top level. -/
theorem recordOn_root {b : Builder} (x : Nat × BitfieldEntry) (hb : b.stack = [])
    (htag : b.pendingVariantTag = -1) :
    recordOn p run m b x.1 x.2 =
      setRoots b (run.msbFirst m.littleEndian) (b.roots ++ entryKids p run m x) := by
  obtain ⟨stack, roots, tag, count, derives, determines, bits, msb⟩ := b
  subst hb htag
  unfold recordOn entryKids
  by_cases h : x.2.name = "_"
  · rw [if_pos h, if_pos h, List.append_nil]
    rfl
  · rw [if_neg h, if_neg h]
    rfl

theorem pendingVariantTag_recordOn {b : Builder} (h : b.pendingVariantTag = -1) :
    (recordOn p run m b offset e).pendingVariantTag = -1 := by
  rcases hb : b.stack with _ | ⟨⟨c, kids⟩, rest⟩
  · rw [recordOn_root (offset, e) hb h]
    exact h
  · have hstack : b = setStack b (.mk c kids :: rest) := by rw [← hb]; rfl
    rw [hstack, recordOn_scope (offset, e) h]
    exact h

theorem recordEntries_eq {es : List (Nat × BitfieldEntry)} (hfit : Fits p run m) (hes : ∀ x ∈ es, x.2.name ≠ "")
    (htag : m.builder.pendingVariantTag = -1) :
    SameSpot p m (recordEntries p run es m) ∧
      (recordEntries p run es m).builder = es.foldl (fun b x => recordOn p run m b x.1 x.2) m.builder := by
  induction es generalizing m with
  | nil => exact ⟨.refl m, rfl⟩
  | cons x es ih =>
    obtain ⟨hspot, hbuilder⟩ := @recordEntry_eq p run m x.1 x.2 hfit (hes x (by simp)) htag
    have htag' : (recordEntry p run x.1 x.2 m).builder.pendingVariantTag = -1 := by
      rw [hbuilder]
      exact pendingVariantTag_recordOn htag
    obtain ⟨hspot', hbuilder'⟩ := ih (hspot.fits hfit) (fun y hy => hes y (List.mem_cons_of_mem _ hy)) htag'
    refine ⟨hspot.trans hspot', hbuilder'.trans ?_⟩
    rw [List.foldl_cons, hbuilder]
    refine congrArg (fun f => List.foldl f _ es) (funext fun b => funext fun y => ?_)
    exact hspot.recordOn_eq b y.1 y.2

/-- Entries recorded in an open scope. -/
theorem foldl_recordOn_scope {b : Builder} {c : Cell} {kids rest : List Node} (x : Nat × BitfieldEntry)
    (es : List (Nat × BitfieldEntry)) (htag : b.pendingVariantTag = -1) :
    (x :: es).foldl (fun b x => recordOn p run m b x.1 x.2) (setStack b (.mk c kids :: rest)) =
      setStack b (.mk (markRun (run.msbFirst m.littleEndian) c)
        (kids ++ (x :: es).flatMap (entryKids p run m)) :: rest) := by
  induction es generalizing c kids x with
  | nil =>
    rw [List.foldl_cons, List.foldl_nil, recordOn_scope x htag, List.flatMap_singleton]
  | cons y es ih =>
    rw [List.foldl_cons, recordOn_scope x htag, ih y, List.append_assoc, ← List.flatMap_cons]
    rfl

/-- Entries recorded at top level. -/
theorem foldl_recordOn_root {b : Builder} (x : Nat × BitfieldEntry)
    (es : List (Nat × BitfieldEntry)) (hb : b.stack = []) (htag : b.pendingVariantTag = -1) :
    (x :: es).foldl (fun b x => recordOn p run m b x.1 x.2) b =
      setRoots b (run.msbFirst m.littleEndian) (b.roots ++ (x :: es).flatMap (entryKids p run m)) := by
  induction es generalizing b x with
  | nil =>
    rw [List.foldl_cons, List.foldl_nil, recordOn_root x hb htag, List.flatMap_singleton]
  | cons y es ih =>
    rw [List.foldl_cons, recordOn_root x hb htag, ih (b := setRoots b _ _) y hb htag]
    simp only [setRoots, List.append_assoc, List.flatMap_cons]

/-! ### The nodes -/

theorem byteCount_pos (run : Run) : 0 < run.container.byteCount ∧ run.container.byteCount ≤ 8 := by
  unfold PrimitiveInfo.byteCount
  rw [run.integer]
  cases run.container.width <;> decide

/-- The entries are not none. -/
theorem placed_ne_nil (run : Run) : ∃ x xs, run.placed = x :: xs := by
  have htotal := run.total
  have hpos := (byteCount_pos run).1
  unfold Run.placed
  rcases hes : run.entries with _ | ⟨e, es⟩
  · rw [hes, List.map_nil, List.sum_nil] at htotal
    omega
  · exact ⟨_, _, rfl⟩

theorem mem_offsets {x : Nat × BitfieldEntry} {es : List BitfieldEntry} {o : Nat} (h : x ∈ Run.offsets o es) :
    x.2 ∈ es := by
  induction es generalizing o with
  | nil => cases h
  | cons e es ih =>
    rcases List.mem_cons.1 h with rfl | h
    · exact List.mem_cons_self
    · exact List.mem_cons_of_mem _ (ih h)

/-- The children and the layout of a recorded run. -/
structure RunNode (p : Program) (run : Run) (m : Machine) (c : Node) : Prop where
  kids : c.kids = run.placed.flatMap (entryKids p run m)
  msbFirst : c.cell.bitsMsbFirst = run.msbFirst m.littleEndian
  span : runBytes c p.bytes = bytesAt p.bytes m.pos run.container.byteCount

theorem runBytes_span {c : Node} {src : List UInt8} {pos n : Nat} (hb : c.cell.bval = []) (hs : c.cell.startOffset = pos)
    (he : c.cell.endOffset = pos + n) (hn : 0 < n) : runBytes c src = bytesAt src pos n := by
  rw [runBytes, if_neg (not_not.2 hb), hs, he, if_pos (by omega), Nat.add_sub_cancel_left]

theorem getLast_attach (b : Builder) (n : Node) : (b.attach n).current.getLast? = some n := by
  obtain ⟨_ | ⟨⟨c, kids⟩, rest⟩, roots, tag, count, derives, determines, bits, msb⟩ := b
  · exact List.getLast?_concat
  · exact List.getLast?_concat

theorem recorded_eq (hfit : Fits p run m) (htag : m.builder.pendingVariantTag = -1) :
    SameSpot p m (recordEntries p run run.placed m) ∧
      (recordEntries p run run.placed m).builder =
        run.placed.foldl (fun b x => recordOn p run m b x.1 x.2) m.builder :=
  recordEntries_eq hfit (fun _ hx => run.named _ (mem_offsets hx)) htag

/-- **The CEK machine** leaves the run's entries in the field's scope. -/
theorem recordedField_eq (name : Option String) (hfit : Fits p run m) :
    ∃ c, recordedField p run name m = some c ∧ RunNode p run m c := by
  obtain ⟨x, xs, hx⟩ := placed_ne_nil run
  have hopen : SameSpot p m (openField name m) := ⟨rfl, rfl, rfl⟩
  obtain ⟨hspot, hbuilder⟩ := recorded_eq (hopen.fits hfit) rfl
  let cell : Cell :=
    { (default : Cell) with
      name := name, type := .struct, startOffset := m.pos, endOffset := m.pos
      variantTag := m.builder.pendingVariantTag }
  have hscope : (openField name m).builder =
      setStack m.builder.clearPendingTag (.mk cell [] :: m.builder.stack) := rfl
  rw [hscope, hx, foldl_recordOn_scope x xs rfl, ← hx, List.nil_append] at hbuilder
  have hstop := hfit.sizeAdd
  refine ⟨.mk { markRun (run.msbFirst m.littleEndian) cell with endOffset := m.pos + run.container.byteCount }
    (run.placed.flatMap (entryKids p run (openField name m))), ?_, ?_, rfl, ?_⟩
  · unfold recordedField
    simp only [hbuilder, hspot.pos]
    rw [hopen.pos, hstop]
    exact getLast_attach _ _
  · refine congrArg (fun f => run.placed.flatMap f) (funext fun y => ?_)
    rw [entryKids, entryKids, entryNode, entryNode, hopen.extracted_eq]
    rfl
  · exact runBytes_span rfl rfl rfl (byteCount_pos run).1

/-- And in the document, where the run is all of a rule. -/
theorem recordedRoot_eq (hfit : Fits p run m) (hb : m.builder = .empty) (hpos : m.pos = 0) {c : Node}
    (hc : recordedRoot p run m = some c) : RunNode p run m c := by
  obtain ⟨x, xs, hx⟩ := placed_ne_nil run
  obtain ⟨hspot, hbuilder⟩ := recorded_eq hfit (by rw [hb]; rfl)
  rw [hx, foldl_recordOn_root x xs (by rw [hb]; rfl) (by rw [hb]; rfl), ← hx, hb] at hbuilder
  unfold recordedRoot at hc
  simp only [hbuilder, hspot.pos, hfit.sizeAdd, Builder.finish] at hc
  split at hc
  · cases hc
  · cases hc
    exact ⟨rfl, rfl, runBytes_span rfl hpos.symm rfl (byteCount_pos run).1⟩

end

/-! ## Documents -/

/-- A node is the run, laid out in the order `msbFirst` says. -/
structure Holds (run : Run) (msbFirst : Bool) (c : Node) (src : List UInt8) : Prop where
  kids : c.kids.map (fun k => (k.cell.name, k.cell.bits)) =
    (run.placed.filter fun (_, e) => e.name ≠ "_").map fun (o, e) => (some e.name, run.tag msbFirst o e)
  msbFirst : c.cell.bitsMsbFirst = msbFirst
  length : (runBytes c src).length = run.container.byteCount

end Bbq.Bits
