import Bbq.Cek.Compile
import Bbq.Leb128.Agree
import Bbq.Writer.Context

/-!
# The prefixes a generated C writer derives

A count field and the size field of a `@rest` are not written from the value: `derive_write_prefixes`
(`backends/render/RenderEmit.cpp:415-493`) marks the read of the field, which then reserves a hole, and the array or the end
of the window, which patches it (`backends/render/templates/writer_c.inja:48-131`).

* `PrimJson` is what the passes hand on of a type (`prim_json`), and `readField` the reader that is generated for it
  (`read_fn_json`).
* The operations are those that the pass looks at, in its order. The padding of an `until` array is left out.
-/

namespace Bbq

/-- The width in bits. -/
def Width.bits : Width → Nat
  | .w8 => 8
  | .w16 => 16
  | .w32 => 32
  | .w64 => 64

namespace Writer

open Cek Leb128

/-! ## Types -/

/-- An integer type of the grammar (`DecodePrimitive`). -/
inductive IntType
  | fixed (width : Width) (sign : Signedness) (endian : Endianness)
  | uleb (width : LebWidth)
  | sleb (width : LebWidth)
  deriving DecidableEq, Repr

def carrier : LebWidth → Width
  | .w32 => .w32
  | .w64 => .w64

def IntType.kind : IntType → PrimitiveKind
  | .fixed width sign endian => .integer width sign endian .fixed
  | .uleb width => .integer (carrier width) .unsigned .default .uleb
  | .sleb width => .integer (carrier width) .signed .default .sleb

/-- What is handed on of an integer type. -/
structure PrimJson where
  w : Nat
  signed : Bool
  be : Bool
  native : Bool
  enc : Encoding
  deriving DecidableEq, Repr

/-- `prim_json`. -/
def primJson (p : PrimitiveInfo) (defaultLe : Bool) : PrimJson where
  w := p.width.bits
  signed := p.sign = .signed
  be := p.endian = .big || p.endian = .default && !defaultLe
  native := p.endian = .default
  enc := p.encoding

def IntType.json (t : IntType) (defaultLe : Bool) : PrimJson := primJson (toPrimInfo t.kind) defaultLe

/-! ## The reader of a field -/

/-- `bbq_read_u16le` and its siblings: the value, and the cursor after it. -/
def readFixed (n : Nat) (signed little : Bool) (c : Cursor) : Option (Int × Nat) :=
  if c.pos + n > c.stop then none
  else
    let word := wordOf little (bytesAt c.data c.pos n)
    some (if signed then signExtend n word else word, c.pos + n)

/-- What `read_fn_json` names, under the endianness in force. -/
def readField (p : PrimJson) (littleEndian : Bool) (c : Cursor) : Option (Int × Nat) :=
  match p.enc with
  | .uleb => (C.readUleb128 c (if p.w = 64 then 64 else 32)).map fun x => (x.1.toNat, x.2.pos)
  | .sleb => (C.readSleb128 c (if p.w = 64 then 64 else 32)).map fun x => (x.1.toInt, x.2.pos)
  | .fixed => readFixed (p.w / 8) p.signed (if p.native then littleEndian else !p.be) c

/-- The endianness in force after some `@endian` directives; the outermost rule starts with the default. -/
def endianAfter (defaultLe : Bool) (directives : List Bool) : Bool := directives.foldl (fun _ d => d) defaultLe

/-! ## The operations -/

/-- An expression record, as far as the pass tells them apart. -/
inductive ExprJson
  | fieldRef (name : String)
  | pathValue (x : ExprJson)
  | pathField (base : ExprJson) (field : String)
  | other
  deriving DecidableEq, Repr

/-- `count_field`. -/
def ExprJson.countField : ExprJson → Option String
  | .fieldRef name => some name
  | .pathValue (.pathField _ field) => some field
  | _ => none

/-- An operation, with the marks the pass leaves on it. -/
inductive WriteOp
  | read (target : String) (prim : PrimJson) (restReserve : Bool) (countId : Option Nat)
  | pushInterval (relative : Bool) (expr : ExprJson) (rest : Bool)
  | popInterval (rest : Option PrimJson)
  | arrayBegin (count : Option ExprJson) (patch : Option (Nat × PrimJson))
  | other
  deriving DecidableEq, Repr

/-- No pass has marked it. -/
def WriteOp.plain : WriteOp → Bool
  | .read _ _ restReserve countId => !restReserve && countId.isNone
  | .pushInterval _ _ rest => !rest
  | .popInterval rest => rest.isNone
  | .arrayBegin _ patch => patch.isNone
  | .other => true

/-- The pass on its way: the operations behind it, last first, `count_seq` and `rest_stack`. -/
structure Derive where
  done : List WriteOp
  countSeq : Nat
  restStack : List (Option PrimJson)

/-- The last read of the count field, marked; and its type. -/
def markCount (field : String) (id : Nat) : List WriteOp → Option (List WriteOp × PrimJson)
  | [] => none
  | .read target prim rest countId :: ops =>
    if target = field then some (.read target prim rest (some id) :: ops, prim)
    else (markCount field id ops).map fun (ops, p) => (.read target prim rest countId :: ops, p)
  | op :: ops => (markCount field id ops).map fun (ops, p) => (op :: ops, p)

/-- The body of the loop. -/
def Derive.step (d : Derive) : WriteOp → Derive
  | .pushInterval relative expr rest =>
    match relative, expr, d.done with
    | true, .fieldRef name, .read target prim _ countId :: done =>
      if target = name then
        { d with
          done := .pushInterval relative expr true :: .read target prim true countId :: done
          restStack := some prim :: d.restStack }
      else { d with done := .pushInterval relative expr rest :: d.done, restStack := none :: d.restStack }
    | _, _, _ => { d with done := .pushInterval relative expr rest :: d.done, restStack := none :: d.restStack }
  | .popInterval rest =>
    match d.restStack with
    | [] => { d with done := .popInterval rest :: d.done }
    | prim :: stack => { d with done := .popInterval (prim.or rest) :: d.done, restStack := stack }
  | .arrayBegin count patch =>
    match (count.bind ExprJson.countField).bind fun field => markCount field d.countSeq d.done with
    | none => { d with done := .arrayBegin count patch :: d.done }
    | some (done, prim) =>
      { d with done := .arrayBegin count (some (d.countSeq, prim)) :: done, countSeq := d.countSeq + 1 }
  | op => { d with done := op :: d.done }

/-- `derive_write_prefixes`, on the operations of a function. -/
def deriveWritePrefixes (ops : List WriteOp) : List WriteOp := (ops.foldl Derive.step ⟨[], 0, []⟩).done.reverse

/-! ## What patches what -/

/-- The array's patch is of the count that the read reserves. -/
def CountLinked (ops : List WriteOp) (read patch : PrimJson) : Prop :=
  ∃ id target rest count, .read target read rest (some id) ∈ deriveWritePrefixes ops ∧
    .arrayBegin count (some (id, patch)) ∈ deriveWritePrefixes ops

/-- The `@rest` sizes reserved and not yet patched, innermost first, `ops` being the operations last first. -/
def openRests : List WriteOp → List PrimJson
  | [] => []
  | .read _ prim true _ :: ops => prim :: openRests ops
  | .popInterval (some _) :: ops => (openRests ops).tail
  | _ :: ops => openRests ops

/-- The end of the window patches the size that the read reserves. -/
def SizeLinked (ops : List WriteOp) (read patch : PrimJson) : Prop :=
  ∃ before after, deriveWritePrefixes ops = before ++ .popInterval (some patch) :: after ∧
    (openRests before.reverse).head? = some read

/-! ## What is patched -/

/-- The width and the encoding that the template passes to the patch functions. -/
def PrimJson.form (p : PrimJson) : Form := ⟨p.w, p.enc = .uleb⟩

/-- And the byte order. -/
def PrimJson.little (p : PrimJson) : Bool := !p.be

/-- The id is reserved by a call. -/
def Op.reserves (id : Nat) : Op → Bool
  | .reserveCount i _ => i == id
  | _ => false

/-- A state in which the count `id` is reserved, with nothing reserved under the id since. -/
def CountOpen (w : Writer) (id : Nat) (f : Form) : Prop :=
  ∃ capacity before calls, (∀ o ∈ calls, o.reserves id = false) ∧
    (init capacity).run (before ++ .reserveCount id f :: calls) = some w

/-- A state that calls lead to. -/
def Reached (w : Writer) : Prop := ∃ capacity calls, (init capacity).run calls = some w

/-- The reader of the field at an offset reads the number and takes the bytes that encode it. -/
def ReadAt (p : PrimJson) (littleEndian : Bool) (data : List UInt8) (pos : Nat) (v : UInt64) (bs : List UInt8) : Prop :=
  readField p littleEndian ⟨data, pos, data.length, Nat.le_refl _⟩ = some ((v.toNat : Int), pos + bs.length)

/-- **A prefix of a type is patched as its reader reads it**, for a count or size `v`; or the patch fails. -/
structure PatchedAsRead (t : IntType) (defaultLe : Bool) (directives : List Bool) (v : UInt64) : Prop where
  count : ∀ ops patch, (∀ op ∈ ops, op.plain = true) → CountLinked ops (t.json defaultLe) patch →
    ∀ w id hole w', CountOpen w id (t.json defaultLe).form → w.countHoles[id]? = some hole →
      w.patchCount id v patch.form patch.little = some w' →
      ReadAt (t.json defaultLe) (endianAfter defaultLe directives) w'.data hole v (patch.form.encode v patch.little)
  size : ∀ ops patch, (∀ op ∈ ops, op.plain = true) → SizeLinked ops (t.json defaultLe) patch →
    ∀ w hole outer w', Reached w → w.restHoles = hole :: outer → w.data.length = hole + v.toNat →
      w.patchRest patch.form patch.little = some w' →
      ReadAt (t.json defaultLe) (endianAfter defaultLe directives) w'.data hole v (patch.form.encode v patch.little)

/-- The number fits the type, in the byte order that is patched. -/
def Fits (defaultLe : Bool) (directives : List Bool) (v : UInt64) : IntType → Prop
  | .fixed width sign endian =>
    v.toNat < 2 ^ (width.bits - if sign = .signed then 1 else 0) ∧
      (endian = .default → endianAfter defaultLe directives = defaultLe ∨
        fixedBytes v (width.bits / 8) true = fixedBytes v (width.bits / 8) false)
  | .uleb width => v.toNat < 2 ^ width.bits
  | .sleb _ => False

end Writer

end Bbq
