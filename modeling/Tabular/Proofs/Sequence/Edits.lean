import Tabular.Proofs.Failure
import Tabular.Proofs.Slice
import Tabular.Sequence

/-! # Edits that fail

An edit of a list fails for its arguments and the list alone, and then leaves the list as it was. So
a run of edits is the run of those among them that succeed.
-/
namespace Tabular

namespace Sequence

variable {α : Type u} {l : List α}

def Outside (l : List α) (i : Int) : Prop := i < -l.length ∨ l.length ≤ i

/-- The edits that may fail. A repetition comes with the length for which memory can be had, which
the list itself is taken to be within. -/
inductive Edit (α : Type u) where
  | update (i : Int) (a : α)
  | set (i : Int) (a : α)
  | delete (i : Int)
  | setSlice (part : Slice) (replacement : List α)
  | deleteSlice (part : Slice)
  | pop
  | popAt (i : Int)
  | remove (a : α)
  | repeatInPlace (bound : Nat) (n : Int)

/-- When an edit fails, and for which cause. -/
def Refuses [BEq α] (l : List α) : Edit α → Failure → Prop
  | .update i _, cause => Outside l i ∧ cause = .indexOutOfRange container
  | .set i _, cause => Outside l i ∧ cause = .assignmentOutOfRange container
  | .delete i, cause => Outside l i ∧ cause = .assignmentOutOfRange container
  | .setSlice part replacement, cause =>
    (part.step = some 0 ∧ cause = .zeroSliceStep) ∨
      ∃ touched, slice l part = .ok touched ∧ part.step.getD 1 ≠ 1 ∧
        replacement.length ≠ touched.length ∧
        cause = .extendedSliceSize touched.length replacement.length
  | .deleteSlice part, cause => part.step = some 0 ∧ cause = .zeroSliceStep
  | .pop, cause => l = [] ∧ cause = .popFromEmpty
  | .popAt i, cause =>
    (l = [] ∧ cause = .popFromEmpty) ∨ (l ≠ [] ∧ Outside l i ∧ cause = .popIndexOutOfRange)
  | .remove a, cause => (∀ b ∈ l, (b == a) = false) ∧ cause = .notFound "list.remove(x)"
  | .repeatInPlace bound n, cause =>
    l ≠ [] ∧ 0 < n ∧ (0x10000000000000000 ≤ l.length * n ∨ bound < l.length * n) ∧
      cause = .repeatTooLong container

open Outcome (FailsWhen)

variable [BEq α]

def perform (l : List α) : Edit α → Outcome (List α) (Option α)
  | .update i a => (update l i a).map fun _ => none
  | .set i a => (set l i a).map fun _ => none
  | .delete i => (delete l i).map fun _ => none
  | .setSlice part replacement => (setSlice l part replacement).map fun _ => none
  | .deleteSlice part => (deleteSlice l part).map fun _ => none
  | .pop => (pop l).map some
  | .popAt i => (popAt l i).map some
  | .remove a => (remove l a).map fun _ => none
  | .repeatInPlace bound n => (repeatInPlace bound l n).map fun _ => none

end Sequence

end Tabular
