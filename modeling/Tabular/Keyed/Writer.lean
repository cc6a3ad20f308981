import Tabular.OrderedMap
import Tabular.Writer

/-! # Writing keyed rows

A keyed row is written in the order of the field names, whatever the order of its keys.
-/
namespace Tabular

/-- What becomes of the keys that are no field names. -/
inductive Extras where
  | refuse
  | ignore
  deriving DecidableEq, Repr

structure KeyedWriter where
  writer : Writer
  names : List String
  filler : String := ""
  extras : Extras := .refuse

namespace KeyedWriter

def unknownKeys (k : KeyedWriter) (row : OrderedMap String Cell) : List String :=
  row.keys.filter fun key => !k.names.contains key

def arrange (k : KeyedWriter) (row : OrderedMap String Cell) : Row :=
  k.names.map fun name => (row.get? name).getD (.text k.filler)

def writePlain (k : KeyedWriter) (row : Row) : Outcome KeyedWriter Unit :=
  let written := k.writer.writeRow row
  ⟨written.result, { k with writer := written.after }⟩

def writeHeader (k : KeyedWriter) : Outcome KeyedWriter Unit :=
  k.writePlain (k.names.map .text)

def writeRow (k : KeyedWriter) (row : OrderedMap String Cell) : Outcome KeyedWriter Unit :=
  if k.extras = .refuse ∧ k.unknownKeys row ≠ [] then .fail (.extraFields (k.unknownKeys row)) k
  else k.writePlain (k.arrange row)

def writeRows (k : KeyedWriter) : List (OrderedMap String Cell) → Outcome KeyedWriter Unit
  | [] => .done () k
  | row :: rows =>
    let written := k.writeRow row
    match written.result with
    | .ok () => written.after.writeRows rows
    | .error cause => .fail cause written.after

end KeyedWriter

end Tabular
