import Bbq.Bytes
import Mathlib.Data.List.Sort

/-!
# Reading an object file

`parse_elf` (`jitterator/src/jitterator.cpp:76-220`): the section names, the symbols of `.text` and its relocations.

* All offsets are 64-bit values and wrap. What is read at an offset is an `Access`, `none` where a byte outside of the file
  is read.
* The reader that is generated from `elf64.bbq` is a parameter: it gives the section headers (`Elf`) or fails. A symbol and
  a relocation are 24 bytes of fixed fields.
-/

namespace Bbq.Jit

/-! ## The file -/

/-- What was read; `none` for a byte outside of the file. -/
abbrev Access (α : Type) := Option α

structure File where
  bytes : List UInt8
  small : bytes.length < 2 ^ 64

/-- A C string. -/
abbrev Name := List UInt8

def ascii (s : String) : Name := s.toList.map fun c => .ofNat c.toNat

namespace File

variable (f : File)

def size : UInt64 := .ofNat f.bytes.length

/-- The bytes from an offset on. -/
def rest (off : UInt64) : List UInt8 := f.bytes.drop off.toNat

end File

/-- `strcmp(p, s) == 0`, up to the first byte that differs. -/
def strcmp : (p : List UInt8) → (s : Name) → Access Bool
  | [], _ => none
  | b :: _, [] => some (b == 0)
  | b :: bs, c :: cs => if b = c then strcmp bs cs else some false

/-- `std::string(p)`. -/
def cString (p : List UInt8) : Access Name := if 0 ∈ p then some (p.takeWhile (· ≠ 0)) else none

/-! ## Headers and entries -/

structure Shdr where
  name : UInt32
  type : UInt32
  offset : UInt64
  size : UInt64
  link : UInt32
  info : UInt32
  entsize : UInt64
  deriving DecidableEq, Repr

structure Elf where
  shstrndx : UInt16
  shdrs : List Shdr

structure Sym where
  name : UInt32
  info : UInt8
  shndx : UInt16
  value : UInt64
  size : UInt64

structure Rela where
  offset : UInt64
  info : UInt64

namespace Sym

def ofBytes (bs : List UInt8) : Sym where
  name := .ofNat (leNat (bytesAt bs 0 4))
  info := .ofNat (leNat (bytesAt bs 4 1))
  shndx := .ofNat (leNat (bytesAt bs 6 2))
  value := .ofNat (leNat (bytesAt bs 8 8))
  size := .ofNat (leNat (bytesAt bs 16 8))

def bind (s : Sym) : UInt8 := (s.info >>> 4) &&& 0x0F

def type (s : Sym) : UInt8 := s.info &&& 0x0F

/-- A global function of the section. -/
def global (s : Sym) (shndx : Nat) : Bool := 1 ≤ s.bind && s.type == 2 && s.shndx.toNat == shndx

end Sym

namespace Rela

def ofBytes (bs : List UInt8) : Rela where
  offset := .ofNat (leNat (bytesAt bs 0 8))
  info := .ofNat (leNat (bytesAt bs 8 8))

def sym (r : Rela) : UInt32 := (r.info >>> 32).toUInt32

def type (r : Rela) : UInt32 := r.info.toUInt32

end Rela

namespace Shdr

/-- The entries of a table. -/
def count (s : Shdr) : Nat := if s.entsize = 0 then 0 else (s.size / s.entsize).toNat

/-- Where the `j`-th of them is. -/
def entryOffset (s : Shdr) (j : Nat) : UInt64 := s.offset + .ofNat j * s.entsize

end Shdr

section

variable (f : File)

/-- `Elf64_Sym_read(data + off, size - off)` and `Elf64_Rela_read`: they fail on fewer than 24 bytes. -/
def readEntry (off : UInt64) : Access (Option (List UInt8)) :=
  if f.size - off < 24 then some none
  else if off.toNat + 24 ≤ f.bytes.length then some (some (bytesAt f.bytes off.toNat 24))
  else none

/-- The `j`-th entry of a table, skipped where it runs past the file. -/
def tableEntry (s : Shdr) (j : Nat) : Access (Option (List UInt8)) :=
  if s.entryOffset j + s.entsize > f.size then some none else readEntry f (s.entryOffset j)

variable (e : Elf)

/-- `elf_string`, copied. -/
def elfString (link : UInt32) (name : UInt32) : Access Name :=
  match e.shdrs[link.toNat]? with
  | none => some []
  | some s =>
    let off := s.offset + name.toUInt64
    if off ≥ f.size then some [] else cString (f.rest off)

/-! ## `.text` -/

/-- `shstrtab`, if the section names are in the file. -/
def sectionNames : Option Shdr :=
  (e.shdrs[e.shstrndx.toNat]?).filter fun ss => ss.offset + ss.size ≤ f.size

/-- The section may be `.text`: its name is compared. -/
def compared (names : Option Shdr) (s : Shdr) : Option UInt64 :=
  match names with
  | none => none
  | some ss => if s.type = 1 ∧ s.name.toUInt64 < ss.size then some (ss.offset + s.name.toUInt64) else none

def isText (names : Option Shdr) (s : Shdr) : Access Bool :=
  match compared names s with
  | none => some false
  | some off => strcmp (f.rest off) (ascii ".text")

/-- The first `.text` section, with its index. -/
def findText (names : Option Shdr) : List Shdr → (i : Nat) → Access (Option (Nat × Shdr))
  | [], _ => some none
  | s :: ss, i => do if ← isText f names s then return some (i, s) else findText names ss (i + 1)

/-! ## Symbols and relocations -/

/-- `StencilInfo`. -/
structure StencilInfo where
  name : Name
  offset : UInt64
  size : UInt64
  deriving DecidableEq, Repr

/-- `RelaEntry`. Nothing reads its addend. -/
structure RelaEntry where
  offset : UInt64
  type : UInt32
  symName : Name
  deriving DecidableEq, Repr

/-- The entries of the tables of a kind. -/
def entries (p : Shdr → Bool) : List (Shdr × Nat) :=
  (e.shdrs.filter p).flatMap fun s => (List.range s.count).map fun j => (s, j)

def stencilOf (shndx : Nat) (x : Shdr × Nat) : Access (Option StencilInfo) := do
  match ← tableEntry f x.1 x.2 with
  | none => return none
  | some bs =>
    let sym := Sym.ofBytes bs
    if sym.global shndx then
      let name ← elfString f e x.1.link sym.name
      return if name = [] then none else some ⟨name, sym.value, sym.size⟩
    else return none

def relaOf (x : Shdr × Nat) : Access (Option RelaEntry) := do
  match e.shdrs[x.1.link.toNat]? with
  | none => return none
  | some symtab =>
    match ← tableEntry f x.1 x.2 with
    | none => return none
    | some bs =>
      let rela := Rela.ofBytes bs
      if rela.sym.toNat ≥ symtab.count then return none
      else
        match ← tableEntry f symtab rela.sym.toNat with
        | none => return none
        | some bs =>
          let name ← elfString f e symtab.link (Sym.ofBytes bs).name
          return some ⟨rela.offset, rela.type, name⟩

/-- `ElfInfo`. -/
structure ElfInfo where
  textOffset : UInt64
  textSize : UInt64
  stencils : List StencilInfo
  textRelas : List RelaEntry

def symtabs : Shdr → Bool := fun s => s.type == 2

def relaTables (shndx : Nat) : Shdr → Bool := fun s => s.type == 4 && s.info.toNat == shndx

/-- `parse_elf`, the headers read. -/
def parseElf : Access (Except String ElfInfo) := do
  match ← findText f (sectionNames f e) e.shdrs 0 with
  | none => return .error "no .text section found"
  | some (shndx, text) =>
    if text.size = 0 then return .error "no .text section found"
    else
      let stencils ← (entries e symtabs).mapM (stencilOf f e shndx)
      let relas ← (entries e (relaTables shndx)).mapM (relaOf f e)
      return .ok
        { textOffset := text.offset
          textSize := text.size
          stencils := stencils.reduceOption.insertionSort fun a b => a.offset ≤ b.offset
          textRelas := relas.reduceOption }

end

/-! ## When nothing outside of the file is read -/

section

variable (f : File) (e : Elf)

/-- The comparison with a section's name ends in the file. -/
def NameEnds (names : Option Shdr) (s : Shdr) : Prop :=
  ∀ off, compared names s = some off → ¬ f.rest off <+: ascii ".text"

/-- The section is `.text`. -/
def IsText (names : Option Shdr) (s : Shdr) : Prop :=
  ∃ off, compared names s = some off ∧ ascii ".text" ++ [0] <+: f.rest off

/-- So do those up to the first `.text`. -/
def NamesEnd (names : Option Shdr) : List Shdr → Prop
  | [] => True
  | s :: ss => NameEnds f names s ∧ (¬ IsText f names s → NamesEnd names ss)

/-- An entry's offset that wraps around is not taken for one in the file. -/
def EntryInside (s : Shdr) (j : Nat) : Prop :=
  s.entryOffset j + s.entsize ≤ f.size → s.entryOffset j ≤ f.size ∨ f.size - s.entryOffset j < 24

/-- A string in the file ends there. -/
def StringEnds (link name : UInt32) : Prop :=
  ∀ s, e.shdrs[link.toNat]? = some s → s.offset + name.toUInt64 < f.size → 0 ∈ f.rest (s.offset + name.toUInt64)

/-- The entry is read, and these are its bytes. -/
def EntryIs (s : Shdr) (j : Nat) (bs : List UInt8) : Prop :=
  s.entryOffset j + s.entsize ≤ f.size ∧ (s.entryOffset j).toNat + 24 ≤ f.bytes.length ∧
    bs = bytesAt f.bytes (s.entryOffset j).toNat 24

/-- A symbol of `.text` is read inside of the file. -/
structure StencilInside (shndx : Nat) (s : Shdr) (j : Nat) : Prop where
  entry : EntryInside f s j
  name : ∀ bs, EntryIs f s j bs → (Sym.ofBytes bs).global shndx = true →
    StringEnds f e s.link (Sym.ofBytes bs).name

/-- A relocation and its symbol are. -/
structure RelaInside (s : Shdr) (j : Nat) : Prop where
  entry : EntryInside f s j
  symbol : ∀ bs symtab, EntryIs f s j bs → e.shdrs[s.link.toNat]? = some symtab →
    (Rela.ofBytes bs).sym.toNat < symtab.count → EntryInside f symtab (Rela.ofBytes bs).sym.toNat
  name : ∀ bs symtab sym, EntryIs f s j bs → e.shdrs[s.link.toNat]? = some symtab →
    (Rela.ofBytes bs).sym.toNat < symtab.count → EntryIs f symtab (Rela.ofBytes bs).sym.toNat sym →
    StringEnds f e symtab.link (Sym.ofBytes sym).name

/-- **`parse_elf` reads inside of the file.** -/
structure ParsesInside : Prop where
  names : NamesEnd f (sectionNames f e) e.shdrs
  symbols : ∀ shndx text, findText f (sectionNames f e) e.shdrs 0 = some (some (shndx, text)) → text.size ≠ 0 →
    ∀ s j, s ∈ e.shdrs → symtabs s = true → j < s.count → StencilInside f e shndx s j
  relas : ∀ shndx text, findText f (sectionNames f e) e.shdrs 0 = some (some (shndx, text)) → text.size ≠ 0 →
    ∀ s j, s ∈ e.shdrs → relaTables shndx s = true → j < s.count → s.link.toNat < e.shdrs.length → RelaInside f e s j

end

end Bbq.Jit
