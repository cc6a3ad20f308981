import Tabular.Failure

/-! # Dialects

A dialect says how records are laid out as lines of text: which character divides the fields,
how a field is quoted, and what ends a line.
-/
namespace Tabular

inductive Quoting where
  | all
  | minimal
  | none
  /-- Every field that does not name a number; an unquoted field has to name one. -/
  | nonNumeric
  deriving DecidableEq, Repr

structure Dialect where
  delimiter : Char := ','
  quote : Option Char := some '"'
  escape : Option Char := none
  doubleQuote : Bool := true
  skipInitialSpace : Bool := false
  terminator : String := "\r\n"
  quoting : Quoting := .minimal
  strict : Bool := false
  deriving DecidableEq, Repr

def isBreak (c : Char) : Bool := c == '\r' || c == '\n'

namespace Dialect

def excel : Dialect := {}

def excelTab : Dialect := { excel with delimiter := '\t' }

def unix : Dialect := { excel with terminator := "\n", quoting := .all }

inductive Fault where
  | quoteMissing
  | quoteIsDelimiter
  | escapeIsDelimiter
  | escapeIsQuote
  | delimiterIsBreak
  | terminatorEmpty
  deriving DecidableEq, Repr

def Fault.reason : Fault → String
  | .quoteMissing => "quotechar must be set if quoting enabled"
  | .quoteIsDelimiter => "bad delimiter or quotechar value"
  | .escapeIsDelimiter => "bad delimiter or escapechar value"
  | .escapeIsQuote => "bad escapechar or quotechar value"
  | .delimiterIsBreak => "bad delimiter value"
  | .terminatorEmpty => "lineterminator must be set"

def fault? (d : Dialect) : Option Fault :=
  if d.quoting ≠ .none ∧ d.quote = none then some .quoteMissing
  else if d.quote = some d.delimiter then some .quoteIsDelimiter
  else if d.escape = some d.delimiter then some .escapeIsDelimiter
  else if d.escape ≠ none ∧ d.escape = d.quote then some .escapeIsQuote
  else if isBreak d.delimiter then some .delimiterIsBreak
  else if d.terminator = "" then some .terminatorEmpty
  else none

def validate (d : Dialect) : Except Failure Unit :=
  match d.fault? with
  | some fault => .error (.invalidDialect fault.reason)
  | none => .ok ()

def isQuote (d : Dialect) (c : Char) : Bool := d.quoting != .none && d.quote == some c

def isEscape (d : Dialect) (c : Char) : Bool := d.escape == some c

end Dialect

end Tabular
