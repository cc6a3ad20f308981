import Tabular.Reader
import Tabular.Registry
import Tabular.Writer

/-! # Sessions

A session is what readers and writers share: the registry of dialects and the limit on the
length of fields. Operations report events.
-/
namespace Tabular

inductive Level where
  | debug
  | trace
  deriving DecidableEq, Repr

def Level.name : Level → String
  | .debug => "DEBUG"
  | .trace => "TRACE"

inductive Event where
  | registered (name : String)
  | unregistered (name : String)
  | limitChanged (before after : Nat)
  | recordRead (line width : Nat)
  | raggedRow (width first : Nat)
  deriving DecidableEq, Repr

namespace Event

def level : Event → Level
  | recordRead _ _ => .trace
  | _ => .debug

def message : Event → String
  | registered name => "registered csv dialect '" ++ name ++ "'"
  | unregistered name => "unregistered csv dialect '" ++ name ++ "'"
  | limitChanged before after =>
    "csv field size limit " ++ toString before ++ " -> " ++ toString after
  | recordRead line width =>
    "csv record ending at line " ++ toString line ++ " with " ++ toString width ++ " fields"
  | raggedRow width first =>
    "csv row with " ++ toString width ++ " fields after a first row of " ++ toString first

end Event

/-- What a request for a record reports: a record that was completed by a line, but not one that
was closed by the end of the source. -/
def Reader.Pull.events (p : Reader.Pull) : List Event :=
  match p.result with
  | some (.ok record) =>
    if p.after.exhausted then [] else [.recordRead p.after.lineNum record.length]
  | _ => []

/-- What a writer reports between two of its states: the rows whose width differs from that of
the first row. -/
def Writer.eventsSince (after before : Writer) : List Event :=
  match after.width with
  | some first => (after.ragged.toList.drop before.ragged.size).map fun n => .raggedRow n first
  | none => []

structure Session where
  registry : Registry := .standard
  fieldLimit : Nat := Reader.defaultLimit

namespace Session

structure Reply (β : Type u) extends Outcome Session β where
  events : List Event := []

def register (s : Session) (name : String) (dialect : Dialect) : Reply Unit :=
  let registered := s.registry.register name dialect
  match registered.result with
  | .ok () =>
    { result := .ok (), after := { s with registry := registered.after },
      events := [.registered name] }
  | .error cause => { result := .error cause, after := s }

def unregister (s : Session) (name : String) : Reply Unit :=
  let unregistered := s.registry.unregister name
  match unregistered.result with
  | .ok () =>
    { result := .ok (), after := { s with registry := unregistered.after },
      events := [.unregistered name] }
  | .error cause => { result := .error cause, after := s }

/-- Changes the limit for the readers opened from now on, and answers the one before. -/
def setFieldLimit (s : Session) (limit : Nat) : Reply Nat :=
  { result := .ok s.fieldLimit
    after := { s with fieldLimit := limit }
    events := if s.fieldLimit = limit then [] else [.limitChanged s.fieldLimit limit] }

inductive Choice where
  | named (name : String)
  | given (dialect : Dialect)

def dialect (s : Session) : Choice → Except Failure Dialect
  | .named name => s.registry.get name
  | .given dialect => .ok dialect

def openReader (s : Session) (source : List Item) (choice : Choice) (limit : Option Nat) :
    Except Failure Reader :=
  match s.dialect choice with
  | .ok dialect => Reader.open? source dialect (limit.getD s.fieldLimit)
  | .error cause => .error cause

def openWriter (s : Session) (sink : Sink) (choice : Choice) : Except Failure Writer :=
  match s.dialect choice with
  | .ok dialect => Writer.open? sink dialect
  | .error cause => .error cause

end Session

end Tabular
