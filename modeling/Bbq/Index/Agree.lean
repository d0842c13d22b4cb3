import Bbq.Index.Flat
import Bbq.Index.Tree

/-!
# Both builders make one index

`zcow::builder` and `bbq_capture_builder` are views of one draft (`treeBuilder`, `flatBuilder`), so
after the same well-nested calls their finished indices say the same.
-/

namespace Bbq.Index

open Bbq.Lib

/-- **The flat C builder and the tree builder agree**: for any well-nested calls the tree that
`bbq_view_finish` makes and the one that `zcow::builder::finish` makes have the same shape, names,
kinds, variant tags, spans and computed values, in the same order, and both are the index of the
draft in which a mark is a copy. -/
theorem finish_agree (calls : List (Call Op)) (h : WellNested Op.bracket calls) (pos : Nat) :
    ((lite.run (.init, []) calls).1.finish pos).map resolvedOutline =
        ((zcow.run (.empty, []) calls).1.finish true pos).map nodeOutline ∧
      ((zcow.run (.empty, []) calls).1.finish true pos).map nodeOutline =
        ((copying Draft.step Draft.keepTag).run (.empty, []) calls).1.finish pos := by
  obtain ⟨-, -, htree⟩ := treeBuilder.run_view (s := .empty) trivial rfl h
  obtain ⟨-, hclosed, hflat⟩ := flatBuilder.run_view (s := .init) Lite.Builder.good_init rfl h
  have hflat' : ((lite.run (.init, []) calls).1.finish pos).map resolvedOutline =
      ((copying Draft.step Draft.keepTag).run (.empty, []) calls).1.finish pos := by
    rw [finish_flat hclosed]
    exact congrArg (fun d : Draft => d.finish pos) hflat
  have htree' : ((zcow.run (.empty, []) calls).1.finish true pos).map nodeOutline =
      ((copying Draft.step Draft.keepTag).run (.empty, []) calls).1.finish pos := by
    rw [finish_tree]
    exact congrArg (fun d : Draft => d.finish pos) htree
  exact ⟨hflat'.trans htree'.symm, htree'⟩

/-- A choice inside a struct: the first arm closes an array, opens another scope and fails, the
second matches. -/
def retried : List (Call Op) :=
  [.op (.beginStruct (some "s") 0), .op (.addField (some "k") 0 1 .uInt8 none .fixed ⟨0, 0, false, false⟩), .mark,
    .op (.beginVariant (some "a") 1 0), .op (.beginArray (some "xs") 1),
    .op (.addField none 1 2 .uInt8 none .fixed ⟨0, 0, false, false⟩), .op (.endArray 2), .op (.beginStruct none 2),
    .restore 0, .op (.beginVariant (some "b") 1 1),
    .op (.addField (some "x") 1 2 .uInt8 none .fixed ⟨0, 0, false, false⟩), .op (.endStruct 2), .forget,
    .op (.endStruct 2)]

theorem finish_agree_retried :
    ((lite.run (.init, []) retried).1.finish 2).map resolvedOutline =
        ((zcow.run (.empty, []) retried).1.finish true 2).map nodeOutline ∧
      ((zcow.run (.empty, []) retried).1.finish true 2).map nodeOutline =
        ((copying Draft.step Draft.keepTag).run (.empty, []) retried).1.finish 2 :=
  finish_agree retried (by decide) 2

end Bbq.Index
