import Bbq.Jit.Inside

/-!
# Extracting the stencils

`extract_stencils` (`jitterator/src/jitterator.cpp:266-376`) and what `main` does with it.

* A stencil is the bytes of a symbol of `.text`, with a patch for every relocation of its range. A patch names its hole by an
  index of 16 bits.
* The diagnostics are collected, and one of them stops the extraction.
-/

namespace Bbq.Jit

/-! ## Patches -/

inductive PatchType
  | abs64
  | abs32S
  | relBranch
  | relData
  deriving DecidableEq, Repr

/-- The bytes that are patched. -/
def PatchType.width : PatchType → Nat
  | .abs64 => 8
  | .abs32S | .relBranch | .relData => 4

/-- `reloc_to_patch_type`. -/
def patchType (type : UInt32) : Option PatchType :=
  if type = 1 then some .abs64
  else if type = 11 then some .abs32S
  else if type = 4 then some .relBranch
  else if type = 2 then some .relData
  else none

structure PatchInfo where
  offset : UInt32
  type : PatchType
  holeIndex : UInt16
  deriving DecidableEq, Repr

structure Stencil where
  name : Name
  code : List UInt8
  patches : List PatchInfo
  holeNames : List Name
  dataHoleCount : UInt16
  deriving DecidableEq, Repr

/-- What is reported on `stderr`. -/
inductive Diagnostic
  | noBody (stencil : Name)
  | pastText (stencil : Name) (start stop textSize : UInt64)
  | notHole (stencil sym : Name) (offset : UInt32)
  | notPatch (stencil hole : Name) (offset : UInt32) (type : UInt32)
  deriving DecidableEq, Repr

/-- The bytes from `off` on, `none` where they are not in the file. -/
def File.slice (f : File) (off size : UInt64) : Access (List UInt8) :=
  if off.toNat + size.toNat ≤ f.bytes.length then some (bytesAt f.bytes off.toNat size.toNat) else none

/-! ## One stencil -/

/-- The holes found so far. -/
structure Holes where
  names : List Name
  patches : List PatchInfo
  diagnostics : List Diagnostic

namespace StencilInfo

variable (si : StencilInfo)

/-- The relocation is one of the stencil's. -/
def covers (r : RelaEntry) : Bool := si.offset ≤ r.offset && r.offset < si.offset + si.size

/-- Where the relocation is in the stencil. -/
def fieldOffset (r : RelaEntry) : UInt32 := (r.offset - si.offset).toUInt32

end StencilInfo

/-- The symbol is a named hole. -/
def RelaEntry.isHole (r : RelaEntry) : Bool := (ascii "_HOLE_").isPrefixOf r.symName

/-- The index is found, or one is created. -/
def holeNamesOf (names : List Name) (name : Name) : List Name := if name ∈ names then names else names ++ [name]

/-- The body of the loop over the relocations. -/
def addRela (si : StencilInfo) (h : Holes) (r : RelaEntry) : Holes :=
  if !si.covers r then h
  else if !r.isHole then { h with diagnostics := h.diagnostics ++ [.notHole si.name r.symName (si.fieldOffset r)] }
  else
    let names := holeNamesOf h.names r.symName
    match patchType r.type with
    | none => { h with names, diagnostics := h.diagnostics ++ [.notPatch si.name r.symName (si.fieldOffset r) r.type] }
    | some t =>
      { h with names, patches := h.patches ++ [⟨si.fieldOffset r, t, .ofNat (h.names.idxOf r.symName)⟩] }

def holesOf (info : ElfInfo) (si : StencilInfo) : Holes := info.textRelas.foldl (addRela si) ⟨[], [], []⟩

/-- The holes that need an entry of the constant pool. -/
def dataHoleCount (h : Holes) : UInt16 :=
  .ofNat ((List.range h.names.length).countP fun i => h.patches.any fun p => p.type = .relData && p.holeIndex.toNat == i)

section

variable (f : File) (info : ElfInfo)

/-- The body of the loop over the symbols: what it reports, and the stencil. -/
def extractOne (si : StencilInfo) : Access (List Diagnostic × Option Stencil) := do
  if si.size = 0 then return ([.noBody si.name], none)
  else if si.offset + si.size > info.textSize then
    return ([.pastText si.name si.offset (si.offset + si.size) info.textSize], none)
  else
    let code ← f.slice (info.textOffset + si.offset) si.size
    let h := holesOf info si
    return (h.diagnostics, some ⟨si.name, code, h.patches, h.names, dataHoleCount h⟩)

/-- `extract_stencils`. -/
def extractStencils : Access (Except (List Diagnostic) (List Stencil)) := do
  let rs ← info.stencils.mapM (extractOne f info)
  let ds := rs.flatMap Prod.fst
  return if ds = [] then .ok (rs.filterMap Prod.snd) else .error ds

end

/-! ## The program -/

/-- How it stops. -/
inductive Failure
  | message (text : String)
  | aborting (diagnostics : List Diagnostic)
  deriving DecidableEq, Repr

/-- `main`, up to the table it writes; `read` is the reader of `elf64.bbq`. -/
def jitterator (read : List UInt8 → Option Elf) (f : File) : Access (Except Failure (List Stencil)) := do
  if f.bytes = [] then return .error (.message "Cannot read")
  else
    match read f.bytes with
    | none => return .error (.message "ELF64 parse failed")
    | some e =>
      match ← parseElf f e with
      | .error m => return .error (.message m)
      | .ok info =>
        if info.stencils = [] then return .error (.message "No global function symbols found in")
        else
          match ← extractStencils f info with
          | .error ds => return .error (.aborting ds)
          | .ok stencils => return .ok stencils

/-! ## What is promised -/

section

variable (read : List UInt8 → Option Elf) (f : File) (info : ElfInfo)

/-- The relocations of a stencil's bytes. -/
def StencilInfo.relas (si : StencilInfo) : List RelaEntry :=
  info.textRelas.filter fun r => si.offset.toNat ≤ r.offset.toNat ∧ r.offset.toNat < si.offset.toNat + si.size.toNat

/-- The patch is in the code, and its index is the one of the relocation's symbol. -/
structure PatchSound (s : Stencil) (r : RelaEntry) (p : PatchInfo) : Prop where
  inside : p.offset.toNat + p.type.width ≤ s.code.length
  hole : s.holeNames[p.holeIndex.toNat]? = some r.symName

/-- The code is a range of `.text` and of the file, and the patches are sound. -/
structure Sound (si : StencilInfo) (s : Stencil) : Prop where
  inText : si.offset.toNat + si.size.toNat ≤ info.textSize.toNat
  inFile : info.textOffset.toNat + si.offset.toNat + si.size.toNat ≤ f.bytes.length
  code : s.code = bytesAt f.bytes (info.textOffset.toNat + si.offset.toNat) si.size.toNat
  patches : List.Forall₂ (PatchSound s) (si.relas info) s.patches

/-- Nothing outside of the file is read, and what is extracted is sound. -/
def Extracts : Prop :=
  ∃ o, jitterator read f = some o ∧ ∀ stencils, o = .ok stencils →
    ∃ e info, read f.bytes = some e ∧ parseElf f e = some (.ok info) ∧ List.Forall₂ (Sound f info) info.stencils stencils

/-! ## When it is kept -/

/-- The symbol's range, as it is compared, is in the file. -/
def BodyInside (si : StencilInfo) : Prop :=
  si.size ≠ 0 → si.offset + si.size ≤ info.textSize →
    (info.textOffset + si.offset).toNat + si.size.toNat ≤ f.bytes.length

/-- Nothing is reported of the symbol. -/
structure Unreported (si : StencilInfo) : Prop where
  body : si.size ≠ 0
  range : si.offset + si.size ≤ info.textSize
  relas : ∀ r ∈ info.textRelas, si.covers r = true → r.isHole = true ∧ (patchType r.type).isSome = true

/-- No offset of the symbol wraps around, the fields of its relocations are in it, and its holes have an index. -/
structure Fits (si : StencilInfo) : Prop where
  range : si.offset.toNat + si.size.toNat < 2 ^ 64
  text : info.textOffset.toNat + si.offset.toNat < 2 ^ 64
  fields : ∀ r ∈ info.textRelas, si.covers r = true → ∀ t, patchType r.type = some t →
    (si.fieldOffset r).toNat + t.width ≤ si.size.toNat
  holes : ((info.textRelas.filter si.covers).map RelaEntry.symName).dedup.length ≤ 2 ^ 16

/-- The object's symbols and relocations. -/
structure ObjectFits (info : ElfInfo) : Prop where
  bodies : ∀ si ∈ info.stencils, BodyInside f info si
  fits : (∀ si ∈ info.stencils, Unreported info si) → ∀ si ∈ info.stencils, Fits info si

end

end Bbq.Jit
