import Bbq.Lib.Splice
import Bbq.Zcow.Bits

/-!
# The code buffer

`jitterator/runtime/jit_codebuf.h`: a buffer of machine code that grows while stencils are copied into it,
is sealed, patched and made executable.

* `mem` is the mapping at `base`, and `writable` its protection. What `mmap`, `munmap` and `mprotect` answer
  comes with the call. `jcb_free` is left out.
* A result `none` is a step that is not defined: a write outside the mapping or into pages that are not
  writable, or a displacement whose signed subtraction overflows.
* A `size_t` is a `UInt64`, so that sums wrap as they do there.
-/

namespace Bbq.Codebuf

open Bbq.Lib Bbq.Zcow

/-- The size of a page. -/
structure Page where
  size : UInt64
  pow : ∃ k < 64, size.toNat = 2 ^ k

/-- `jcb_page_align`. As the size is a power of two, the mask takes off the remainder. -/
def pageAlign (page : Page) (n : UInt64) : UInt64 :=
  let m := n + page.size - 1
  m - m % page.size

/-- `jit_codebuf_t`. -/
structure CodeBuf where
  base : Nat
  cap : UInt64
  size : UInt64
  finalized : Bool
  isSealed : Bool
  failed : Bool
  mem : List UInt8
  writable : Bool

/-- What a call did: refused what was asked, wrote stretches (start and length), returned a pointer. -/
structure Effect where
  refused : Bool
  wrote : List (Nat × Nat)
  ret : Option Nat

def Effect.done : Effect := { refused := false, wrote := [], ret := none }

/-- `jcb_init`. -/
def jcbInit (page : Page) (initial_cap : UInt64) (map : Option Nat) : Option CodeBuf :=
  let cap := pageAlign page (if initial_cap ≠ 0 then initial_cap else 4096)
  map.map fun base =>
    { base, cap, size := 0, finalized := false, isSealed := false, failed := false
      mem := List.replicate cap.toNat 0, writable := true }

/-- `memcpy` into the mapping. -/
def poke (b : CodeBuf) (start : Nat) (data : List UInt8) : Option CodeBuf :=
  if data = [] ∨ b.writable = true ∧ start + data.length ≤ b.mem.length then
    some { b with mem := splice b.mem start data }
  else none

/-- Mark the buffer failed and refuse. -/
def fail (b : CodeBuf) : CodeBuf × Effect := ({ b with failed := true }, { Effect.done with refused := true })

/-- The capacity `jcb_reserve` grows to. -/
def growTo (page : Page) (b : CodeBuf) (extra : UInt64) : UInt64 :=
  pageAlign page (if b.cap * 2 > b.size + extra then b.cap * 2 else b.size + extra + 4096)

/-- `jcb_reserve`. -/
def jcbReserve (page : Page) (b : CodeBuf) (extra : UInt64) (map : Option Nat) : Option (CodeBuf × Bool) :=
  if b.size + extra ≤ b.cap then some (b, true)
  else if b.isSealed || b.finalized then some ({ b with failed := true }, false)
  else
    match map with
    | none => some ({ b with failed := true }, false)
    | some base =>
      let cap := growTo page b extra
      (poke { b with base, cap, mem := List.replicate cap.toNat 0, writable := true } 0
        (b.mem.take b.size.toNat)).map fun b => (b, true)

/-- `jcb_emit`. -/
def jcbEmit (page : Page) (b : CodeBuf) (data : List UInt8) (map : Option Nat) : Option (CodeBuf × Effect) :=
  let len := UInt64.ofNat data.length
  if b.isSealed then some (fail b)
  else
    (jcbReserve page b len map).bind fun (b, ok) =>
      if ok then
        (poke b b.size.toNat data).map fun b' =>
          ({ b' with size := b.size + len }, { Effect.done with wrote := [(b.size.toNat, data.length)] })
      else some (b, { Effect.done with refused := true })

/-- `jcb_patch32` and `jcb_patch64`, with the bytes of the value. -/
def jcbPatch (b : CodeBuf) (off : UInt64) (data : List UInt8) : Option (CodeBuf × Effect) :=
  if off + UInt64.ofNat data.length > b.size then some (fail b)
  else (poke b off.toNat data).map fun b => (b, { Effect.done with wrote := [(off.toNat, data.length)] })

def jcbPatch32 (b : CodeBuf) (off : UInt64) (v : Int32) : Option (CodeBuf × Effect) :=
  jcbPatch b off (wordBytes 4 v.toUInt32.toUInt64)

def jcbPatch64 (b : CodeBuf) (off v : UInt64) : Option (CodeBuf × Effect) := jcbPatch b off (wordBytes 8 v)

/-- A word read as an `int64_t`. -/
def signed64 (n : Nat) : Int := (n : Int).bmod (2 ^ 64)

/-- `from`: where a displacement at `off` counts from. -/
def fieldEnd (base off : Nat) : Int := signed64 (base + off) + 4

/-- `disp`. -/
def displacement (base off : Nat) (target : UInt64) : Int := signed64 target.toNat - fieldEnd base off

/-- The sums of `jcb_patch_rel32` fit an `int64_t`. -/
def Measurable (base off : Nat) (target : UInt64) : Prop :=
  fieldEnd base off < 2 ^ 63 ∧ -2 ^ 63 ≤ displacement base off target ∧ displacement base off target < 2 ^ 63

instance (base off : Nat) (target : UInt64) : Decidable (Measurable base off target) :=
  inferInstanceAs (Decidable (_ ∧ _ ∧ _))

/-- The displacement fits the field. -/
def Near (base off : Nat) (target : UInt64) : Prop :=
  -2 ^ 31 ≤ displacement base off target ∧ displacement base off target < 2 ^ 31

instance (base off : Nat) (target : UInt64) : Decidable (Near base off target) := inferInstanceAs (Decidable (_ ∧ _))

/-- The bytes of a displacement. -/
def relBytes (base off : Nat) (target : UInt64) : List UInt8 :=
  wordBytes 4 (UInt64.ofInt (displacement base off target))

/-- `jcb_patch_rel32`. -/
def jcbPatchRel32 (b : CodeBuf) (off target : UInt64) : Option (CodeBuf × Effect) :=
  if b.isSealed = false then some (fail b)
  else if off + 4 > b.size then some (fail b)
  else if b.mem.length < off.toNat + 4 then none
  else if ¬ Measurable b.base off.toNat target then none
  else if ¬ Near b.base off.toNat target then some (fail b)
  else (poke b off.toNat (relBytes b.base off.toNat target)).map fun b =>
    (b, { Effect.done with wrote := [(off.toNat, 4)] })

/-- `jcb_seal`. -/
def jcbSeal (b : CodeBuf) : CodeBuf := { b with isSealed := true }

/-- `jcb_reset`. -/
def jcbReset (b : CodeBuf) : CodeBuf := { b with size := 0, finalized := false, isSealed := false, failed := false }

/-- The tail that holds no code is given back. -/
def trim (page : Page) (b : CodeBuf) (munmap : Bool) : CodeBuf :=
  let used := pageAlign page b.size
  if used < b.cap ∧ munmap = true then { b with cap := used, mem := b.mem.take used.toNat } else b

/-- `jcb_finalize`. -/
def jcbFinalize (page : Page) (b : CodeBuf) (munmap mprotect : Bool) : CodeBuf × Effect :=
  if b.failed then (b, { Effect.done with refused := true })
  else if b.finalized then (b, { Effect.done with ret := some b.base })
  else if b.size = 0 then fail b
  else
    let b := trim page b munmap
    if mprotect then
      ({ b with finalized := true, isSealed := true, writable := false }, { Effect.done with ret := some b.base })
    else (b, { Effect.done with refused := true })

/-- A call, with what the system answers if it is asked. -/
inductive Op
  | emit (data : List UInt8) (map : Option Nat)
  | patch32 (off : UInt64) (v : Int32)
  | patch64 (off v : UInt64)
  | patchRel32 (off target : UInt64)
  | sealBuf
  | reset
  | finalize (munmap mprotect : Bool)

def step (page : Page) (b : CodeBuf) : Op → Option (CodeBuf × Effect)
  | .emit data map => jcbEmit page b data map
  | .patch32 off v => jcbPatch32 b off v
  | .patch64 off v => jcbPatch64 b off v
  | .patchRel32 off target => jcbPatchRel32 b off target
  | .sealBuf => some (jcbSeal b, .done)
  | .reset => some (jcbReset b, .done)
  | .finalize munmap mprotect => some (jcbFinalize page b munmap mprotect)

end Bbq.Codebuf
