import Bbq.Lib.Pieces
import Bbq.Writer.Context

/-!
# What the calls lay out

The same calls on the text a writer's holes stand in: fields in program order, and each prefix where
it was reserved. `Layout.step` fills a hole where it is, whatever else is open. `Clean` is when the
writer, which knows its holes by offset only, can do the same.
-/

namespace Bbq.Writer

open Bbq.Lib Bbq.Lib.Piece

/-- An open hole. -/
inductive Key
  | count (id : Nat) (f : Form)
  | rest
  deriving DecidableEq, Repr

/-- What an open hole takes up. -/
def Key.room : Key → List UInt8
  | count _ f => if f.isUleb then [] else List.replicate (f.width / 8) 0
  | rest => []

def Key.isRest : Key → Bool
  | rest => true
  | count .. => false

def Key.countId : Key → Option Nat
  | count id _ => some id
  | rest => none

/-- Fields and prefixes in program order. -/
abbrev Layout := List (Piece Key UInt8)

namespace Layout

/-- The bytes as they stand. -/
def bytes (l : Layout) : List UInt8 := shown Key.room l

/-- The holes still open, with their offsets. -/
def holes (l : Layout) : List (Key × Nat) := offsets Key.room 0 l

/-- The ids of the count holes still open. -/
def openIds (l : Layout) : List Nat := l.holes.filterMap fun x => x.1.countId

/-- One call. `none` for one a writer does not make: a count is reserved under an id no open hole
has, and patched in the form it was reserved in; a `@rest` is patched that has been pushed. -/
def step (l : Layout) : Op → Option Layout
  | .write bs => some (l ++ [.text bs])
  | .reserveCount id f => if id ∈ l.openIds then none else some (l ++ [.hole (.count id f)])
  | .patchCount id count f little =>
    (splitLast (· == .count id f) l).map fun (before, _, after) => before ++ .text (f.encode count little) :: after
  | .pushRest => some (l ++ [.hole .rest])
  | .patchRest f little =>
    (splitLast Key.isRest l).map fun (before, _, after) =>
      before ++ .text (f.encode (UInt64.ofNat (shown Key.room after).length) little) :: after

def run (l : Layout) : List Op → Option Layout
  | [] => some l
  | o :: ops => (l.step o).bind fun l' => run l' ops

/-- A call the writer lays out as it should: where a ULEB128 count is patched, something stands
between it and every later hole that is still open; where a `@rest` is patched, no later hole is. -/
def clean (l : Layout) : Op → Bool
  | .patchCount id _ f _ =>
    match splitLast (· == .count id f) l with
    | some (_, _, after) => !f.isUleb || apart after
    | none => true
  | .patchRest _ _ =>
    match splitLast Key.isRest l with
    | some (_, _, after) => (holes after).isEmpty
    | none => true
  | _ => true

/-- So is every call of a sequence. -/
def cleanRun : Layout → List Op → Bool
  | _, [] => true
  | l, o :: ops =>
    l.clean o &&
      match l.step o with
      | some l' => cleanRun l' ops
      | none => true

end Layout

end Bbq.Writer
