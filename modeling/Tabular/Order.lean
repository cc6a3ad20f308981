import Tabular.Binary64

/-! # Natural order

One total order for each type of values. Numbers are in their usual order, floating-point values
in the total order of their bit patterns, text in the order of its UTF-8 bytes; compound values
compare part by part.
-/
namespace Tabular

class NaturalOrd (α : Type u) where
  order : α → α → Ordering

namespace NaturalOrd

variable {α : Type u} {β : Type v} {γ : Type w}

def lexicographic (cmp : α → α → Ordering) : List α → List α → Ordering
  | [], [] => .eq
  | [], _ :: _ => .lt
  | _ :: _, [] => .gt
  | a :: as, b :: bs => (cmp a b).then (lexicographic cmp as bs)

instance : NaturalOrd Int := ⟨compare⟩

instance : NaturalOrd Nat := ⟨compare⟩

instance : NaturalOrd UInt8 := ⟨compare⟩

instance : NaturalOrd Bool := ⟨compare⟩

instance : NaturalOrd Char := ⟨compare⟩

instance : NaturalOrd Unit := ⟨fun _ _ => .eq⟩

instance {ω : Type} [Format ω] : NaturalOrd (Floating ω) := ⟨fun x y => compare x.key y.key⟩

instance [NaturalOrd α] : NaturalOrd (Option α) where
  order
    | none, none => .eq
    | none, some _ => .lt
    | some _, none => .gt
    | some a, some b => order a b

instance [NaturalOrd α] : NaturalOrd (List α) := ⟨lexicographic order⟩

instance : NaturalOrd String := ⟨fun s t => order s.toUTF8.data.toList t.toUTF8.data.toList⟩

/-- The first parts decide unless they are equal; triples are pairs whose second part is a
pair. -/
instance [NaturalOrd α] [NaturalOrd β] : NaturalOrd (α × β) :=
  ⟨fun p q => (order p.1 q.1).then (order p.2 q.2)⟩

end NaturalOrd

end Tabular
