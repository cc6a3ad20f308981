/-! # Causes of failure

Every operation of the library fails with one of the causes below. The wording of a cause is
`Failure.message`, and `Failure.category` sorts the causes into the families that callers tell
apart.
-/
namespace Tabular

inductive Category where
  | index
  | value
  | type
  | record
  | memory
  | device
  deriving DecidableEq, Repr

def Category.name : Category → String
  | .index => "IndexError"
  | .value => "ValueError"
  | .type => "TypeError"
  | .record => "Error"
  | .memory => "MemoryError"
  | .device => "OSError"

inductive Failure where
  | indexOutOfRange (container : String)
  | assignmentOutOfRange (container : String)
  | popFromEmpty
  | popIndexOutOfRange
  | notFound (operation : String)
  | zeroSliceStep
  | repeatTooLong (container : String)
  | extendedSliceSize (expected given : Nat)
  | notNumeric (field : String)
  | extraFields (names : List String)
  | invalidDialect (reason : String)
  | frozenBytes
  | escapeRequired
  | emptyFieldUnquoted
  | fieldLimit (limit : Nat)
  | delimiterExpected (delimiter quote : Char)
  | newlineInUnquoted
  | unexpectedEnd
  | nulInLine
  | unknownDialect (name : String)
  | device (context cause : String)
  deriving DecidableEq, Repr

namespace Failure

def quotedList (names : List String) : String :=
  ", ".intercalate (names.map fun name => "'" ++ name ++ "'")

def message : Failure → String
  | indexOutOfRange container => container ++ " index out of range"
  | assignmentOutOfRange container => container ++ " assignment index out of range"
  | popFromEmpty => "pop from empty list"
  | popIndexOutOfRange => "pop index out of range"
  | notFound operation => operation ++ ": x not in list"
  | zeroSliceStep => "slice step cannot be zero"
  | repeatTooLong container => "repeated " ++ container ++ " is too long"
  | extendedSliceSize expected given =>
    "attempt to assign sequence of size " ++ toString given ++ " to extended slice of size " ++
      toString expected
  | notNumeric field => "could not convert string to float: '" ++ field ++ "'"
  | extraFields names => "dict contains fields not in fieldnames: " ++ quotedList names
  | invalidDialect reason => reason
  | frozenBytes => "'bytes' object does not support item assignment"
  | escapeRequired => "need to escape, but no escapechar set"
  | emptyFieldUnquoted => "single empty field record must be quoted"
  | fieldLimit limit => "field larger than field limit (" ++ toString limit ++ ")"
  | delimiterExpected delimiter quote =>
    "'" ++ delimiter.toString ++ "' expected after '" ++ quote.toString ++ "'"
  | newlineInUnquoted => "new-line character seen in unquoted field"
  | unexpectedEnd => "unexpected end of data"
  | nulInLine => "line contains NUL"
  | unknownDialect _ => "unknown dialect"
  | device context cause => "IO error for '" ++ context ++ "': " ++ cause

def label : Failure → String
  | indexOutOfRange _ => "IndexOutOfRange"
  | assignmentOutOfRange _ => "AssignmentOutOfRange"
  | popFromEmpty => "PopFromEmpty"
  | popIndexOutOfRange => "PopIndexOutOfRange"
  | notFound _ => "NotFound"
  | zeroSliceStep => "ZeroSliceStep"
  | repeatTooLong _ => "RepeatTooLong"
  | extendedSliceSize _ _ => "ExtendedSliceSize"
  | notNumeric _ => "NotNumeric"
  | extraFields _ => "ExtraFields"
  | invalidDialect _ => "InvalidDialect"
  | frozenBytes => "FrozenBytes"
  | escapeRequired => "EscapeRequired"
  | emptyFieldUnquoted => "EmptyFieldUnquoted"
  | fieldLimit _ => "FieldLimit"
  | delimiterExpected _ _ => "DelimiterExpected"
  | newlineInUnquoted => "NewlineInUnquoted"
  | unexpectedEnd => "UnexpectedEnd"
  | nulInLine => "NulInLine"
  | unknownDialect _ => "UnknownDialect"
  | device _ _ => "Io"

def category : Failure → Category
  | indexOutOfRange _ | assignmentOutOfRange _ | popFromEmpty | popIndexOutOfRange => .index
  | notFound _ | zeroSliceStep | extendedSliceSize _ _ | notNumeric _ | extraFields _
  | invalidDialect _ => .value
  | frozenBytes => .type
  | repeatTooLong _ => .memory
  | escapeRequired | emptyFieldUnquoted | fieldLimit _ | delimiterExpected _ _
  | newlineInUnquoted | unexpectedEnd | nulInLine | unknownDialect _ => .record
  | device _ _ => .device

end Failure

/-- What an operation on a mutable value gives back: its answer or the cause of its failure, and
the value as it stands afterwards. -/
structure Outcome (σ : Type u) (β : Type v) where
  result : Except Failure β
  after : σ

namespace Outcome

variable {σ : Type u} {β : Type v}

def done (answer : β) (after : σ) : Outcome σ β := ⟨.ok answer, after⟩

def fail (cause : Failure) (after : σ) : Outcome σ β := ⟨.error cause, after⟩

/-- Goes on with what a success leaves. A failure is the end, and what it leaves stays. -/
def andThen : Outcome σ Unit → (σ → Outcome σ β) → Outcome σ β
  | ⟨.ok (), after⟩, f => f after
  | ⟨.error cause, after⟩, _ => .fail cause after

end Outcome

end Tabular
