import Tabular.Writer.Row

/-! # Formatting in place

A writer formats all its rows in the same two texts. One takes the text of a cell, and the other
gathers the line. A row that cannot be formatted leaves in them what was gathered so far.
-/
namespace Tabular.Writer

structure Buffer where
  line : String := ""
  scratch : String := ""
  deriving DecidableEq, Repr

namespace Buffer

def addCell (d : Dialect) (alone : Bool) (b : Buffer) (cell : Cell) : Outcome Buffer Unit :=
  let loaded := { b with scratch := cell.render }
  match encodeField d alone (quotesCell d cell) loaded.scratch.toList with
  | .error cause => .fail cause loaded
  | .ok piece => .done () { loaded with line := loaded.line ++ String.ofList piece }

/-- Joins cells to the line up to one that fails, each behind a delimiter unless it is the first of
the row. -/
def addCells (d : Dialect) (alone first : Bool) (b : Buffer) : Row → Outcome Buffer Unit
  | [] => .done () b
  | cell :: rest =>
    let divided := if first then b else { b with line := b.line.push d.delimiter }
    let added := divided.addCell d alone cell
    match added.result with
    | .ok () => added.after.addCells d alone false rest
    | .error cause => .fail cause added.after

def format (d : Dialect) (b : Buffer) (row : Row) : Outcome Buffer String :=
  let cells := addCells d (row.length == 1) true { b with line := "" } row
  match cells.result with
  | .error cause => .fail cause cells.after
  | .ok () =>
    let ended := { cells.after with line := cells.after.line ++ d.terminator }
    .done ended.line ended

end Buffer

end Tabular.Writer
