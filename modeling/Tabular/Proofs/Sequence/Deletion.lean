import Mathlib.Data.List.Perm.Basic
import Tabular.Proofs.Sequence.Assignment

/-! # Deletion of slices

A deletion keeps the elements at the positions that are not touched, whichever way it goes about it:
by taking out a range, by leaving the list as it is, or by testing position after position.
-/
namespace Tabular

namespace Walk

variable {α : Type u} {w : Walk} {len i : Nat}

namespace Within

end Within

namespace Within

end Within

end Walk

namespace Sequence

variable {α : Type u} {l : List α} {part other : Slice} {walk : Walk}

end Sequence

end Tabular
