import Bbq.Lib.Backtrack
import Bbq.Lite.Builder
import Bbq.Zcow.Builder

/-!
# What a parse index says

Two builders make an index while a reader runs: `zcow::builder` a tree of nodes, the C
`bbq_capture_builder` a list of captures and a child buffer. `Outline` is what either tree says to
who walks it: names, kinds, variant tags, spans, computed values, and what lies under what in
which order. `Draft` is an index under construction as an index is thought of: the open scopes
with what has been recorded in each. A mark of a draft is a copy of it, and going back to the copy
keeps one thing, the tag a switch has armed.

`Op` is a call both builders understand. Annotations only `zcow` keeps (`set_pending_count_field`,
`scope_determines_rest`, `scope_is_bits_run`, `root_determines`) are calls the C reader does not
make.
-/

namespace Bbq.Index

open Bbq.Lib

/-- A place in the index, apart from what lies under it. -/
structure Head where
  name : Option String
  type : CaptureType
  variantTag : Int
  startOffset : Nat
  endOffset : Nat
  computedValue : Option ComputedValue
  deriving DecidableEq, Repr

/-- A finished index. -/
inductive Outline
  | mk (head : Head) (kids : List Outline)

/-! ## Calls -/

/-- One call a reader makes on its builder. The arms of a choice are numbered from 0. -/
inductive Op
  | beginStruct (name : Option String) (pos : Nat)
  | beginArray (name : Option String) (pos : Nat)
  | beginVariant (name : Option String) (pos : Nat) (arm : Nat)
  | endStruct (pos : Nat)
  | endArray (pos : Nat)
  | addField (name : Option String) (start stop : Nat) (t : CaptureType) (v : Option ComputedValue)
      (enc : Zcow.Enc) (bits : Zcow.BitsAt)
  | setPendingVariantTag (tag : Int)
  | setPendingCountField (path : Option String)
  | rootDetermines (d : Zcow.Derives) (name : Option String)
  | scopeDeterminesRest (sizeField : Option String)
  | scopeIsBitsRun (msbFirst : Bool)
  deriving DecidableEq, Repr

namespace Op

/-- The call on the C++ builder. -/
def zcow : Op → Zcow.Op
  | beginStruct name pos => .beginStruct name pos
  | beginArray name pos => .beginArray name pos
  | beginVariant name pos arm => .beginVariant name pos arm
  | endStruct pos => .endStruct pos
  | endArray pos => .endArray pos
  | addField name start stop t v enc bits => .addField name start stop t v enc bits
  | setPendingVariantTag tag => .setPendingVariantTag tag
  | setPendingCountField path => .setPendingCountField path
  | rootDetermines d name => .rootDetermines d name
  | scopeDeterminesRest sizeField => .scopeDeterminesRest sizeField
  | scopeIsBitsRun msbFirst => .scopeIsBitsRun msbFirst

/-- The call on the C builder, if it has one. -/
def lite : Op → Option Lite.Op
  | beginStruct name pos => some (.beginStruct name pos)
  | beginArray name pos => some (.beginArray name pos)
  | beginVariant name pos arm => some (.beginVariant name pos arm)
  | endStruct pos => some (.endStruct pos)
  | endArray pos => some (.endArray pos)
  | addField name start stop t v _ _ => some (.addField name start stop t v)
  | setPendingVariantTag tag => some (.setPendingVariantTag tag)
  | setPendingCountField _ | rootDetermines .. | scopeDeterminesRest _ | scopeIsBitsRun _ => none

def bracket : Op → Bracket
  | beginStruct .. | beginArray .. | beginVariant .. => .opens
  | endStruct _ | endArray _ => .closes
  | _ => .flat

end Op

/-- The C++ builder, with its marks. -/
def zcow : Speculative Zcow.Builder Op Zcow.Builder.Mark :=
  { step := fun b o => b.step o.zcow, mark := Zcow.Builder.mark, restore := Zcow.Builder.restore }

/-- The C builder, with its marks. -/
def lite : Speculative Lite.Builder Op Lite.Mark :=
  { step := fun b o => (o.lite.map b.step).getD b, mark := Lite.Builder.mark, restore := Lite.Builder.restore }

/-! ## Drafts -/

/-- An index under construction. -/
structure Draft where
  /-- The open scopes, innermost first, each with what it holds so far. -/
  scopes : List (Head × List Outline)
  /-- What stands at top level. -/
  roots : List Outline
  pendingVariantTag : Int

namespace Draft

def empty : Draft := { scopes := [], roots := [], pendingVariantTag := -1 }

/-- Add to the innermost scope. -/
def attach (d : Draft) (t : Outline) : Draft :=
  match d.scopes with
  | [] => { d with roots := d.roots ++ [t] }
  | (h, kids) :: outer => { d with scopes := (h, kids ++ [t]) :: outer }

def openScope (d : Draft) (name : Option String) (type : CaptureType) (pos : Nat) (tag : Int) : Draft :=
  { d with scopes := (⟨name, type, tag, pos, pos, none⟩, []) :: d.scopes }

def closeScope (d : Draft) (pos : Nat) : Draft :=
  match d.scopes with
  | [] => d
  | (h, kids) :: outer => attach { d with scopes := outer } (.mk { h with endOffset := pos } kids)

/-- The armed tag has been taken. -/
def disarm (d : Draft) : Draft := { d with pendingVariantTag := -1 }

def step (d : Draft) : Op → Draft
  | .beginStruct name pos => d.disarm.openScope name .struct pos d.pendingVariantTag
  | .beginArray name pos => d.disarm.openScope name .array pos d.pendingVariantTag
  | .beginVariant name pos arm => d.openScope name .struct pos arm
  | .endStruct pos | .endArray pos => d.closeScope pos
  | .addField name start stop t v _ _ => d.disarm.attach (.mk ⟨name, t, d.pendingVariantTag, start, stop, v⟩ [])
  | .setPendingVariantTag tag => { d with pendingVariantTag := tag }
  | .setPendingCountField _ | .rootDetermines .. | .scopeDeterminesRest _ | .scopeIsBitsRun _ => d

/-- Back at a saved draft, with the tag that is armed now. -/
def keepTag (now saved : Draft) : Draft := { saved with pendingVariantTag := now.pendingVariantTag }

def finish (d : Draft) (pos : Nat) : Option Outline :=
  match d.roots with
  | [] => none
  | roots => some (.mk ⟨none, .struct, -1, 0, pos, none⟩ roots)

end Draft

end Bbq.Index
