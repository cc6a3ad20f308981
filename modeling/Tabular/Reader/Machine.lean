import Tabular.Decimal.Numeral
import Tabular.Dialect

/-! # The record machine

A record is read character by character, each line followed by a mark for its end. The machine
is back in `State.startRecord` at the end of a line exactly when the record is complete;
otherwise the next line continues it. An operation that fails leaves the machine as it is at that
moment, in the middle of a field or with a field half ended.
-/
namespace Tabular

abbrev Record := List String

namespace Reader

inductive State where
  | startRecord
  | startField
  | escaped
  | inField
  | inQuoted
  | escapedInQuoted
  /-- After a quote inside quotes: the end of the quoted part, or the first of a pair. -/
  | quoteInQuoted
  | afterBreak
  /-- In an unquoted field that holds an escaped line break. -/
  | afterEscapedBreak
  deriving DecidableEq, Repr

/-- The complete fields, the open one, and its length, which is counted along with the field so that
the limit on it is checked without measuring the text. -/
structure Machine where
  state : State := .startRecord
  fields : Array String := #[]
  field : Array Char := #[]
  length : Nat := 0
  numeric : Bool := false
  length_eq : length = field.size := by exact rfl
  deriving DecidableEq, Repr

namespace Machine

abbrev empty : Machine := {}

def goto (m : Machine) (state : State) : Machine := { m with state := state }

def moveTo (m : Machine) (state : State) : Outcome Machine Unit := .done () (m.goto state)

def extend (m : Machine) (c : Char) : Machine :=
  { m with
    field := m.field.push c
    length := m.length + 1
    length_eq := by rw [Array.size_push, m.length_eq] }

def push (limit : Nat) (m : Machine) (c : Char) : Outcome Machine Unit :=
  if m.length < limit then .done () (m.extend c) else .fail (.fieldLimit limit) m

def pushThen (limit : Nat) (m : Machine) (c : Char) (next : State) : Outcome Machine Unit :=
  (m.push limit c).andThen (·.moveTo next)

/-- Ends the open field. One that has to name a number and does not is gone all the same. -/
def save (m : Machine) : Outcome Machine Unit :=
  let text := String.ofList m.field.toList
  let emptied := { m with field := #[], length := 0, numeric := false, length_eq := rfl }
  if m.numeric && !Decimal.isNumber text then .fail (.notNumeric text) emptied
  else .done () { emptied with fields := m.fields.push text }

def saveThen (m : Machine) (next : State) : Outcome Machine Unit := m.save.andThen (·.moveTo next)

def startField (d : Dialect) (limit : Nat) (m : Machine) : Option Char → Outcome Machine Unit
  | none => m.saveThen .startRecord
  | some c =>
    if isBreak c then m.saveThen .afterBreak
    else if d.isQuote c then m.moveTo .inQuoted
    else if d.isEscape c then m.moveTo .escaped
    else if c == ' ' && d.skipInitialSpace then .done () m
    else if c == d.delimiter then m.save
    else pushThen limit { m with numeric := m.numeric || d.quoting == .nonNumeric } c .inField

def inField (d : Dialect) (limit : Nat) (m : Machine) : Option Char → Outcome Machine Unit
  | none => m.saveThen .startRecord
  | some c =>
    if isBreak c then m.saveThen .afterBreak
    else if d.isEscape c then m.moveTo .escaped
    else if c == d.delimiter then m.saveThen .startField
    else m.push limit c

def quoteInQuoted (d : Dialect) (limit : Nat) (m : Machine) : Option Char → Outcome Machine Unit
  | none => m.saveThen .startRecord
  | some c =>
    if d.doubleQuote && d.isQuote c then m.pushThen limit c .inQuoted
    else if c == d.delimiter then m.saveThen .startField
    else if isBreak c then m.saveThen .afterBreak
    else if d.strict then .fail (.delimiterExpected d.delimiter (d.quote.getD '"')) m
    else m.pushThen limit c .inField

/-- Reads one character; `none` stands for the end of a line. -/
def receive (d : Dialect) (limit : Nat) (m : Machine) (c? : Option Char) : Outcome Machine Unit :=
  match m.state, c? with
  | .startRecord, none => .done () m
  | .startRecord, some c =>
    if isBreak c then m.moveTo .afterBreak else (m.goto .startField).startField d limit (some c)
  | .startField, c? => m.startField d limit c?
  | .escaped, none => .done () m
  | .escaped, some c => m.pushThen limit c (if isBreak c then .afterEscapedBreak else .inField)
  | .afterEscapedBreak, none => .done () m
  | .afterEscapedBreak, some c => m.inField d limit (some c)
  | .inField, c? => m.inField d limit c?
  | .inQuoted, none => .done () m
  | .inQuoted, some c =>
    if d.isEscape c then m.moveTo .escapedInQuoted
    else if d.isQuote c then m.moveTo .quoteInQuoted
    else m.push limit c
  | .escapedInQuoted, none => .done () m
  | .escapedInQuoted, some c => m.pushThen limit c .inQuoted
  | .quoteInQuoted, c? => m.quoteInQuoted d limit c?
  | .afterBreak, none => m.moveTo .startRecord
  | .afterBreak, some c => if isBreak c then .done () m else .fail .newlineInUnquoted m

/-- An escape left pending by the line before escapes the break between the two lines. -/
def escapeBreak (limit : Nat) (m : Machine) : Outcome Machine Unit :=
  match m.state with
  | .escaped => m.pushThen limit '\n' .inField
  | .escapedInQuoted => m.pushThen limit '\n' .inQuoted
  | _ => .done () m

def receiveAll (d : Dialect) (limit : Nat) : Machine → List Char → Outcome Machine Unit
  | m, [] => m.receive d limit none
  | m, c :: rest =>
    if c == '\x00' then .fail .nulInLine m
    else (m.receive d limit (some c)).andThen fun m => receiveAll d limit m rest

def receiveLine (d : Dialect) (limit : Nat) (m : Machine) (line : String) : Outcome Machine Unit :=
  (m.escapeBreak limit).andThen fun m => m.receiveAll d limit line.toList

def pendingEscape (m : Machine) : Bool :=
  m.state == .escaped || m.state == .escapedInQuoted

def isOpen (m : Machine) : Bool :=
  m.pendingEscape || m.length != 0 || m.state == .inQuoted

/-- Reads a pending escape as itself, for want of a character to escape. -/
def pushEscape (d : Dialect) (limit : Nat) (m : Machine) : Outcome Machine Unit :=
  match m.pendingEscape, d.escape with
  | true, some c => m.push limit c
  | _, _ => .done () m

def withoutFields (m : Machine) : Machine := { m with fields := #[] }

def conclude (d : Dialect) (limit : Nat) (m : Machine) : Outcome Machine (Option Record) :=
  if !m.isOpen then .done none m
  else if d.strict then .fail .unexpectedEnd m
  else
    (m.pushEscape d limit).andThen fun m =>
      m.save.andThen fun m => .done (some m.fields.toList) m.withoutFields

/-- Makes the machine ready for a record, whatever it was in the middle of. -/
def reset (m : Machine) : Machine :=
  { m with
    state := .startRecord
    fields := #[]
    field := #[]
    length := 0
    numeric := false
    length_eq := rfl }

end Machine

end Reader

end Tabular
