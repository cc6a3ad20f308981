import Tabular.Proofs.Slice.Addressed
import Tabular.Proofs.Sequence.Edits

/-! # Assignment to slices

With step one a replacement of any length takes the place of a range. With any other step the
replacement goes to the touched positions, one element to each, and nothing else changes.
-/
namespace Tabular

namespace Walk

variable {α : Type u} {w : Walk} {l replacement : List α} {i k : Nat}

namespace Within

end Within

end Walk

namespace Sequence

variable {α : Type u} {l replacement : List α} {part : Slice} {walk : Walk}

end Sequence

end Tabular
