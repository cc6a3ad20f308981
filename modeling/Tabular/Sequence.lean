import Tabular.Slice

/-! # Sequences

Operations on lists by signed position and by slice, search, and repetition. An operation that
changes a list gives back its answer together with the list afterwards, so that what a failure
leaves behind is part of its meaning.
-/
namespace Tabular.Sequence

variable {α : Type u}

def container : String := "list"

def get (l : List α) (i : Int) : Except Failure α :=
  match (wrapIndex? i l.length).bind (l[·]?) with
  | some a => .ok a
  | none => .error (.indexOutOfRange container)

def update (l : List α) (i : Int) (a : α) : Outcome (List α) Unit :=
  match wrapIndex? i l.length with
  | some p => .done () (l.set p a)
  | none => .fail (.indexOutOfRange container) l

def set (l : List α) (i : Int) (a : α) : Outcome (List α) Unit :=
  match wrapIndex? i l.length with
  | some p => .done () (l.set p a)
  | none => .fail (.assignmentOutOfRange container) l

def delete (l : List α) (i : Int) : Outcome (List α) Unit :=
  match wrapIndex? i l.length with
  | some p => .done () (l.eraseIdx p)
  | none => .fail (.assignmentOutOfRange container) l

def insert (l : List α) (i : Int) (a : α) : List α := l.insertIdx (clampIndex i l.length) a

def pop (l : List α) : Outcome (List α) α :=
  match l.getLast? with
  | some a => .done a l.dropLast
  | none => .fail .popFromEmpty l

def popAt (l : List α) (i : Int) : Outcome (List α) α :=
  if l.isEmpty then .fail .popFromEmpty l
  else
    match wrapIndex? i l.length with
    | none => .fail .popIndexOutOfRange l
    | some p =>
      match l[p]? with
      | some a => .done a (l.eraseIdx p)
      | none => .fail .popIndexOutOfRange l

def fill (l : List α) (every : Nat) (a : α) : List α :=
  l.mapIdx fun k b => if k % every == 0 then a else b

def slice (l : List α) (s : Slice) : Except Failure (List α) :=
  match s.resolve l.length with
  | .ok walk => .ok (walk.select l)
  | .error cause => .error cause

/-- Replaces the positions of a slice. With step one the replacement may have any length; with
any other step it has one element for each position. -/
def setSlice (l : List α) (s : Slice) (replacement : List α) : Outcome (List α) Unit :=
  match s.resolve l.length with
  | .error cause => .fail cause l
  | .ok walk =>
    if walk.contiguous then .done () (walk.splice l replacement)
    else if replacement.length = walk.count then .done () (walk.overwrite l replacement)
    else .fail (.extendedSliceSize walk.count replacement.length) l

def deleteSlice (l : List α) (s : Slice) : Outcome (List α) Unit :=
  match s.resolve l.length with
  | .ok walk => .done () (walk.discard l)
  | .error cause => .fail cause l

section Search

variable [BEq α]

def contains (l : List α) (a : α) : Bool := l.any (· == a)

def count (l : List α) (a : α) : Nat := l.countP (· == a)

def indexIn (l : List α) (a : α) (start stop : Option Int) : Except Failure Nat :=
  match (Slice.mk start stop none).resolve l.length with
  | .error cause => .error cause
  | .ok walk =>
    match (walk.select l).findIdx? (· == a) with
    | some p => .ok (p + walk.rangeStart)
    | none => .error (.notFound "list.index(x)")

def index (l : List α) (a : α) : Except Failure Nat := indexIn l a none none

def remove (l : List α) (a : α) : Outcome (List α) Unit :=
  match l.findIdx? (· == a) with
  | some p => .done () (l.eraseIdx p)
  | none => .fail (.notFound "list.remove(x)") l

end Search

/-- The total above which memory is never had. Of elements of eight bytes one less is already the
most that can be addressed; below it the allocator decides, and so the operations take a bound. -/
def capacity : Nat := 0x1000000000000000

/-- Whether a list of a given length can be had: the length fits into a word of 64 bits and does
not exceed the bound. -/
def fits (bound total : Nat) : Bool := total < 0x10000000000000000 && total ≤ bound

theorem fits_iff {bound total : Nat} :
    fits bound total = true ↔ total < 0x10000000000000000 ∧ total ≤ bound := by
  simp [fits]

def copies (l : List α) (n : Nat) : List α := (List.replicate n l).flatten

def repeated (bound : Nat) (l : List α) (n : Int) : Except Failure (List α) :=
  if n ≤ 0 ∨ l.isEmpty then .ok []
  else if fits bound (l.length * n.toNat) then .ok (copies l n.toNat)
  else .error (.repeatTooLong container)

/-- Makes a list into `n` copies of itself by adding the others behind the first. The list is taken
to lie within the bound itself, so that one copy, for which no memory is asked, always fits. -/
def repeatInPlace (bound : Nat) (l : List α) (n : Int) : Outcome (List α) Unit :=
  if n ≤ 0 then .done () []
  else if l.isEmpty then .done () l
  else if fits bound (l.length * n.toNat) then .done () (l ++ copies l (n.toNat - 1))
  else .fail (.repeatTooLong container) l

end Tabular.Sequence
