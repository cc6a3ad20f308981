import Tabular.OrderedMap
import Tabular.Reader

/-! # Reading keyed rows

A record is keyed by a list of names: each name takes the value at its place, and what is left
over stays a list. The names are given, or they are the first record of the source.
-/
namespace Tabular

structure KeyedRow where
  fields : OrderedMap String String := {}
  rest : List String := []
  deriving DecidableEq, Repr

namespace KeyedRow

/-- Gives each name the next value, or the filler when there are no more values. A name that
comes again keeps its place and takes the later value. -/
def assign (filler : String) (names : List String) (record : Record) : KeyedRow :=
  names.foldl
    (fun row name => ⟨row.fields.insert name (row.rest.headD filler), row.rest.tail⟩)
    ⟨{}, record⟩

def get? (row : KeyedRow) (name : String) : Option String := row.fields.get? name

end KeyedRow

structure KeyedReader where
  reader : Reader
  names : Option (List String) := none
  filler : String := ""

namespace KeyedReader

def setNames (k : KeyedReader) (names : List String) : KeyedReader :=
  { k with names := some names }

/-- The names of the fields, for which the header is read if they are not known. A source that
ends before its header has no names. -/
def fieldNames (k : KeyedReader) : Outcome KeyedReader (List String) :=
  match k.names with
  | some names => .done names k
  | none =>
    let header := k.reader.next
    let after := { k with reader := header.after }
    match header.result with
    | none => .done [] (after.setNames [])
    | some (.ok names) => .done names (after.setNames names)
    | some (.error cause) => .fail cause after

structure Pull where
  result : Option (Except Failure KeyedRow)
  after : KeyedReader

def next (k : KeyedReader) : Pull :=
  let header := k.fieldNames
  match header.result with
  | .error cause => ⟨some (.error cause), header.after⟩
  | .ok names =>
    let record := header.after.reader.nextNonBlank
    let after := { header.after with reader := record.after }
    match record.result with
    | none => ⟨none, after⟩
    | some (.error cause) => ⟨some (.error cause), after⟩
    | some (.ok values) => ⟨some (.ok (KeyedRow.assign k.filler names values)), after⟩

theorem fieldNames_source_length_le (k : KeyedReader) :
    k.fieldNames.after.reader.source.length ≤ k.reader.source.length := by
  have h := k.reader.next_source_length_le
  unfold fieldNames
  split
  · exact Nat.le_refl _
  · dsimp only
    split <;> exact h

theorem fieldNames_source_length_lt {k : KeyedReader} {cause : Failure}
    (h : k.fieldNames.result = .error cause) :
    k.fieldNames.after.reader.source.length < k.reader.source.length := by
  unfold fieldNames at h ⊢
  cases hn : k.names with
  | some names => simp [hn, Outcome.done] at h
  | none =>
    rcases hr : k.reader.next with ⟨_ | _ | _, after⟩
    · simp [hn, hr, Outcome.done] at h
    · exact Reader.source_length_lt_of_next hr
    · simp [hn, hr, Outcome.done] at h

theorem source_length_lt_of_next {k after : KeyedReader} {answer : Except Failure KeyedRow}
    (h : k.next = ⟨some answer, after⟩) :
    after.reader.source.length < k.reader.source.length := by
  unfold next at h
  cases hn : k.fieldNames.result with
  | error cause =>
    simp only [hn, Pull.mk.injEq] at h
    rw [← h.2]
    exact fieldNames_source_length_lt hn
  | ok names =>
    refine Nat.lt_of_lt_of_le ?_ (fieldNames_source_length_le k)
    rcases hr : k.fieldNames.after.reader.nextNonBlank with ⟨_ | _ | _, reader⟩ <;>
      simp only [hn, hr, Pull.mk.injEq, reduceCtorEq, false_and] at h <;>
      · rw [← h.2]
        exact Reader.source_length_lt_of_nextNonBlank hr

structure Rest where
  rows : List KeyedRow
  failed : Option Failure
  after : KeyedReader

def restOnto (done : Array KeyedRow) (k : KeyedReader) : Rest :=
  match _h : k.next with
  | ⟨none, after⟩ => ⟨done.toList, none, after⟩
  | ⟨some (.error cause), after⟩ => ⟨done.toList, some cause, after⟩
  | ⟨some (.ok row), after⟩ => restOnto (done.push row) after
termination_by k.reader.source.length
decreasing_by exact source_length_lt_of_next _h

def rest (k : KeyedReader) : Rest := restOnto #[] k

end KeyedReader

end Tabular
