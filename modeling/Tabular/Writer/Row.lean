import Tabular.Bytes
import Tabular.Decimal.Numeral
import Tabular.Dialect

/-! # Rows as lines

A cell is a value that can be written as one field. The line of a row is the written forms of its
cells, divided by the delimiter and ended by the terminator of the dialect.
-/
namespace Tabular

inductive Cell where
  | text (value : String)
  | int (value : Int)
  | float (value : Binary64)
  | bool (value : Bool)
  | bytes (value : Bytes)
  | absent

namespace Cell

def render : Cell → String
  | text s => s
  | int n => literal n
  | float x => literal x
  | bool b => literal b
  | bytes b => literal b
  | absent => ""

/-- Whether the field counts as a number. Truth values do, and so does text that names one. -/
def isNumeric : Cell → Bool
  | text s => Decimal.isNumber s
  | int _ | float _ | bool _ => true
  | bytes _ | absent => false

end Cell

abbrev Row := List Cell

namespace Writer

def isSpecial (d : Dialect) (c : Char) : Bool :=
  isBreak c || c == d.delimiter || d.escape == some c || d.quote == some c ||
    d.terminator.toList.contains c

def needsEscape (d : Dialect) (c : Char) : Bool :=
  if d.quoting = .none then isSpecial d c
  else if d.quote = some c then !d.doubleQuote
  else d.escape == some c

/-- The written form of a character, given that an escape is set if it needs one. -/
def encodeChar (d : Dialect) (c : Char) : List Char :=
  if needsEscape d c then d.escape.toList ++ [c]
  else if d.isQuote c then [c, c]
  else [c]

def encodeText (d : Dialect) (text : List Char) : Except Failure (List Char) :=
  if d.escape.isNone && text.any (needsEscape d) then .error .escapeRequired
  else .ok (text.flatMap (encodeChar d))

def quotesCell (d : Dialect) (cell : Cell) : Bool :=
  match d.quoting with
  | .all => true
  | .nonNumeric => !cell.isNumeric
  | .minimal | .none => false

def wrap (d : Dialect) (body : List Char) : List Char :=
  match d.quote with
  | some q => q :: body ++ [q]
  | none => body

/-- The written form of the text of a field, between quotes if it is `quoted` or has to be. A field
that is `alone` in its row and empty is quoted, since the line would read as an empty record
otherwise. -/
def encodeField (d : Dialect) (alone quoted : Bool) (text : List Char) :
    Except Failure (List Char) :=
  let bare := alone && text.isEmpty
  match encodeText d text with
  | .error cause => .error cause
  | .ok body =>
    if d.quoting = .none then
      if bare then .error .emptyFieldUnquoted else .ok body
    else if quoted || text.any (isSpecial d) || bare then .ok (wrap d body)
    else .ok body

def encodeCell (d : Dialect) (alone : Bool) (cell : Cell) : Except Failure (List Char) :=
  encodeField d alone (quotesCell d cell) cell.render.toList

def formatRow (d : Dialect) (row : Row) : Except Failure String :=
  match row.mapM (encodeCell d (row.length == 1)) with
  | .error cause => .error cause
  | .ok pieces => .ok (String.ofList ([d.delimiter].intercalate pieces) ++ d.terminator)

end Writer

end Tabular
