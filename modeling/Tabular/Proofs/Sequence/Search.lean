import Mathlib.Order.Bounds.Defs
import Tabular.Binary64
import Tabular.Proofs.Slice.Addressed
import Tabular.Sequence

/-! # Search and removal

All searches of a list look for the positions that match. A search within bounds gives the least
one between them, which is the first in the slice with these bounds, and a removal takes out the
element at the least of all. Nothing is assumed of the equality of elements; a value need not equal
itself.
-/
namespace Tabular

namespace Sequence

variable {α : Type u} {l : List α} {start stop : Option Int} {w : Walk} {p k : Nat}

def between (start stop : Option Int) : Slice := ⟨start, stop, some 1⟩

variable [BEq α] {a : α}

end Sequence

end Tabular
