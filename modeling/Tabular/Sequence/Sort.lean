import Tabular.Order

/-! # Sorting

Stable sorting by a comparison, by the natural order or by the natural order of keys. In reverse
the larger elements come first, and elements that compare equal still keep their order.
-/
namespace Tabular.Sequence

variable {α : Type u} {κ : Type v}

inductive SortBy (α : Type u) (κ : Type v) where
  | natural (cmp : α → α → Ordering)
  | comparison (cmp : α → α → Ordering)
  | key (keyOf : α → κ)

def precedes (cmp : α → α → Ordering) (reverse : Bool) (a b : α) : Bool :=
  if reverse then (cmp b a).isLE else (cmp a b).isLE

def sortUnits (cmp : α → α → Ordering) (reverse : Bool) (l : List α) : List α :=
  l.mergeSort (precedes cmp reverse)

/-- Sorts by any of the three. Each key is computed once. -/
def sortWith [NaturalOrd κ] (criterion : SortBy α κ) (reverse : Bool) (l : List α) : List α :=
  match criterion with
  | .natural cmp => sortUnits cmp reverse l
  | .comparison cmp => sortUnits cmp reverse l
  | .key keyOf =>
    (sortUnits (fun p q : κ × α => NaturalOrd.order p.1 q.1) reverse
      (l.map fun a => (keyOf a, a))).map Prod.snd

def sortBy (cmp : α → α → Ordering) (reverse : Bool) (l : List α) : List α :=
  sortWith (.comparison cmp : SortBy α Unit) reverse l

def sort [NaturalOrd α] (reverse : Bool) (l : List α) : List α :=
  sortWith (.natural NaturalOrd.order : SortBy α Unit) reverse l

def sortByKey [NaturalOrd κ] (key : α → κ) (reverse : Bool) (l : List α) : List α :=
  sortWith (.key key) reverse l

end Tabular.Sequence
