import Bbq.Lite.Rollback
import Bbq.Zcow.Rollback

/-!
# Backtracking and the index under construction

A reader that speculates marks its builder, and on failure restores the mark with the cursor
(`OnFailKont::execute`, `ResyncKont::execute`, the generated readers' `restore` and
`bbq_view_restore`). Both builders keep state their mark does not record, so what an abandoned
attempt did there reaches the attempt that follows.

**`restored_same_iff`** says for both exactly when it does not.
-/

namespace Bbq.Rollback

open Bbq.Lib

/-- The C builders a reader can have in hand: scopes nested in the capture list
(`Lite.Builder.nested_step`). -/
abbrev LiteBuilder := { b : Lite.Builder // b.Nested }

/-- **Both restores undo an attempt exactly when its calls are covered**: for any builder and any
calls made after the mark, the restored builder is for every later call what it was, iff the calls
closed no scope open at the mark and left alone what the mark does not record. -/
theorem restored_same_iff (b : Zcow.Builder) (ops : List Zcow.Op) (c : LiteBuilder)
    (calls : List Lite.Op) :
    (((run Zcow.Builder.step b ops).restore b.mark).Same b ↔ b.Covered ops) ∧
    (((run Lite.Builder.step c.1 calls).restore c.1.mark).Same c.1 ↔ c.1.Covered calls) :=
  ⟨Zcow.Builder.same_restore_iff b ops, Lite.Builder.same_restore_iff c.2 calls⟩

/-! A choice whose first arm is `struct { k: uint8, s: switch (k) { 1: uint32 } }` and whose second
is `struct { x: uint8 }`, on a one-byte input: the first arm runs out of input after its switch
armed the tag. -/

/-- The calls of the first arm up to the read that fails. -/
def switchArm : List Zcow.Op :=
  [.beginVariant (some "A") 0 0, .addField (some "k") 0 1 .uInt8 none .fixed ⟨0, 0, false, false⟩,
    .setPendingVariantTag 0]

/-- The calls of the second arm. -/
def plainArm : List Zcow.Op :=
  [.beginVariant (some "B") 0 1, .addField (some "x") 0 1 .uInt8 none .fixed ⟨0, 0, false, false⟩,
    .endStruct 1]

/-- The same two arms in the C reader. -/
def switchArmLite : List Lite.Op :=
  [.beginVariant (some "A") 0 0, .addField (some "k") 0 1 .uInt8 none, .setPendingVariantTag 0]

def plainArmLite : List Lite.Op :=
  [.beginVariant (some "B") 0 1, .addField (some "x") 0 1 .uInt8 none, .endStruct 1]

/-- The variant tags of the leaves two levels under a root. -/
def leafTags (root : Zcow.Node) : List (List Int) :=
  root.kids.map fun b => b.kids.map fun x => x.cell.variantTag

def leafTagsLite (root : Lite.Resolved) : List (List Int) :=
  root.children.map fun b => b.children.map fun x => x.capture.variantTag

/-- The tag the abandoned switch armed ends up on the plain leaf of the arm that matches: `x` is
recorded as a switch arm it is not. -/
theorem switch_tag_leaks :
    ¬ ((run Zcow.Builder.step .empty switchArm).restore Zcow.Builder.empty.mark).Same .empty ∧
    ¬ ((run Lite.Builder.step .init switchArmLite).restore Lite.Builder.init.mark).Same .init := by
  refine ⟨fun h => ?_, fun h => ?_⟩
  · have htags := congrArg (Option.map leafTags) (h true 1 plainArm)
    exact absurd htags (by decide)
  · have htags := congrArg (Option.map leafTagsLite) (h 1 plainArmLite)
    exact absurd htags (by decide)

end Bbq.Rollback
