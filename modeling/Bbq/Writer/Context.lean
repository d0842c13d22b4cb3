import Bbq.Leb128.Write

/-!
# The C writer's output: `bbq_write_ctx_t`

Where a generated C writer puts its bytes (`backends/c/runtime/bbq_runtime.h:525-642`). A field goes
at the cursor. A count field and the size field of a `@rest` are prefixes: a hole is recorded where
they go and patched once the length is known. A fixed-width count leaves room; a ULEB128 count and
every `@rest` size are inserted, which moves what has been written behind them.

`data` is `data[0, pos)`. The buffer is the caller's, of a fixed size, or grows; a growth that is
refused fails the write and is left out. Lengths and offsets are `size_t` in a buffer that fits in
memory.
-/

namespace Bbq.Writer

/-- How a prefix is written: its width in bits (of a fixed-width one, at most 64) and whether it is
ULEB128. -/
structure Form where
  width : Nat
  isUleb : Bool
  deriving DecidableEq, Repr

/-- The bytes of a fixed-width prefix. -/
def fixedBytes (v : UInt64) (n : Nat) (little : Bool) : List UInt8 :=
  (List.range n).map fun i => (v >>> UInt64.ofNat (8 * if little then i else n - 1 - i)).toUInt8

/-- What a patch writes. -/
def Form.encode (f : Form) (v : UInt64) (little : Bool) : List UInt8 :=
  if f.isUleb then Leb128.C.writeUleb128 v else fixedBytes v (f.width / 8) little

/-- Overwrite from `start` on. -/
def overwrite (data : List UInt8) (start : Nat) : List UInt8 → List UInt8
  | [] => data
  | b :: bs => overwrite (data.set start b) (start + 1) bs

/-- Open a gap at `start` and fill it: `memmove`, then `memcpy`. -/
def insertAt (data : List UInt8) (start : Nat) (bs : List UInt8) : List UInt8 :=
  data.take start ++ bs ++ data.drop start

end Bbq.Writer

namespace Bbq

/-- `bbq_write_ctx_t`, as far as it lays bytes out. -/
structure Writer where
  data : List UInt8
  /-- The size of the caller's buffer; `none` for one that grows. -/
  capacity : Option Nat
  /-- `count_holes`, by id. A slot nothing was recorded in is 0. -/
  countHoles : List Nat
  /-- `rest_holes`, innermost first. -/
  restHoles : List Nat
  deriving DecidableEq, Repr

namespace Writer

def init (capacity : Option Nat) : Writer := { data := [], capacity, countHoles := [], restHoles := [] }

/-- `bbq_write_reserve`: is there room for `need` more bytes. -/
def reserve (w : Writer) (need : Nat) : Bool :=
  match w.capacity with
  | none => true
  | some c => w.data.length + need ≤ c

/-- A field: `bbq_write_bytes`, and each `bbq_write_<prim>` with the bytes it makes. -/
def write (w : Writer) (bs : List UInt8) : Option Writer :=
  if w.reserve bs.length then some { w with data := w.data ++ bs } else none

/-- `bbq_w_push_rest`. -/
def pushRest (w : Writer) : Option Writer := some { w with restHoles := w.data.length :: w.restHoles }

/-- The capacity `bbq_w__count_holes_ensure` doubles to. -/
def doubled (id : Nat) : Nat → Nat → Nat
  | 0, nc => nc
  | fuel + 1, nc => if nc ≤ id then doubled id fuel (nc * 2) else nc

/-- `bbq_w__count_holes_ensure`: `count_holes` covers `id`, the new slots 0. -/
def countHolesEnsure (w : Writer) (id : Nat) : Writer :=
  if id < w.countHoles.length then w
  else
    let nc := doubled id (id + 1) (if w.countHoles.length = 0 then 8 else w.countHoles.length)
    { w with countHoles := w.countHoles ++ List.replicate (nc - w.countHoles.length) 0 }

/-- `bbq_w_reserve_count`. -/
def reserveCount (w : Writer) (id : Nat) (f : Form) : Option Writer :=
  let w := w.countHolesEnsure id
  let w := { w with countHoles := w.countHoles.set id w.data.length }
  if f.isUleb then some w
  else if w.reserve (f.width / 8) then some { w with data := w.data ++ List.replicate (f.width / 8) 0 }
  else none

/-- `bbq_w_patch_count`. -/
def patchCount (w : Writer) (id : Nat) (count : UInt64) (f : Form) (little : Bool) : Option Writer :=
  match w.countHoles[id]? with
  | none => none
  | some hole =>
    let bs := f.encode count little
    if f.isUleb then
      if w.reserve bs.length then
        some { w with
          data := insertAt w.data hole bs
          countHoles := w.countHoles.mapIdx fun i h => if i ≠ id ∧ hole < h then h + bs.length else h
          restHoles := w.restHoles.map fun h => if hole < h then h + bs.length else h }
      else none
    else some { w with data := overwrite w.data hole bs }

/-- `bbq_w_patch_rest`. -/
def patchRest (w : Writer) (f : Form) (little : Bool) : Option Writer :=
  match w.restHoles with
  | [] => none
  | hole :: outer =>
    let bs := f.encode (UInt64.ofNat (w.data.length - hole)) little
    if w.reserve bs.length then some { w with data := insertAt w.data hole bs, restHoles := outer } else none

/-- One call a generated writer makes. -/
inductive Op
  | write (bs : List UInt8)
  | reserveCount (id : Nat) (f : Form)
  | patchCount (id : Nat) (count : UInt64) (f : Form) (little : Bool)
  | pushRest
  | patchRest (f : Form) (little : Bool)
  deriving DecidableEq, Repr

def step (w : Writer) : Op → Option Writer
  | .write bs => w.write bs
  | .reserveCount id f => w.reserveCount id f
  | .patchCount id count f little => w.patchCount id count f little
  | .pushRest => w.pushRest
  | .patchRest f little => w.patchRest f little

/-- The calls in order; `none` as soon as one reports failure. -/
def run (w : Writer) : List Op → Option Writer
  | [] => some w
  | o :: ops => (w.step o).bind fun w' => run w' ops

end Writer

end Bbq
