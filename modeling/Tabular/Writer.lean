import Tabular.Writer.Buffer

/-! # Writing records

A writer formats rows and hands their bytes to a sink. It keeps the width of the first row and
takes note of the rows of another width.
-/
namespace Tabular

structure Sink where
  bytes : ByteArray := .empty
  capacity : Option Nat := none
  refusesFlush : Bool := false

namespace Sink

def failure (cause : String) : Failure := .device "csv output" cause

/-- Takes bytes. A sink that is short of room takes those that fit, and fails. -/
def write (s : Sink) (data : ByteArray) : Outcome Sink Unit :=
  match s.capacity with
  | none => .done () { s with bytes := s.bytes ++ data }
  | some total =>
    let room := total - s.bytes.size
    if data.size ≤ room then .done () { s with bytes := s.bytes ++ data }
    else
      .fail (failure "failed to write whole buffer")
        { s with bytes := s.bytes ++ data.extract 0 room }

def flush (s : Sink) : Except Failure Unit :=
  if s.refusesFlush then .error (failure "flush refused") else .ok ()

end Sink

structure Writer where
  dialect : Dialect
  sink : Sink := {}
  width : Option Nat := none
  /-- The numbers of fields of the rows that differ in it from the first. -/
  ragged : Array Nat := #[]
  buffer : Writer.Buffer := {}

namespace Writer

def open? (sink : Sink) (dialect : Dialect) : Except Failure Writer :=
  match dialect.validate with
  | .ok () => .ok { dialect := dialect, sink := sink }
  | .error cause => .error cause

def noteWidth (w : Writer) (n : Nat) : Writer :=
  match w.width with
  | none => { w with width := some n }
  | some first => if n = first then w else { w with ragged := w.ragged.push n }

def format (w : Writer) (row : Row) : Outcome Writer String :=
  let formatted := w.buffer.format w.dialect row
  ⟨formatted.result, { w with buffer := formatted.after }⟩

/-- Writes one row. A row that cannot be formatted gives nothing to the sink; the width of any other
is noted before its bytes go there. -/
def writeRow (w : Writer) (row : Row) : Outcome Writer Unit :=
  let formatted := w.format row
  match formatted.result with
  | .error cause => .fail cause formatted.after
  | .ok _ =>
    let noted := formatted.after.noteWidth row.length
    let sent := noted.sink.write noted.buffer.line.toUTF8
    ⟨sent.result, { noted with sink := sent.after }⟩

def writeRows (w : Writer) : List Row → Outcome Writer Unit
  | [] => .done () w
  | row :: rows =>
    let written := w.writeRow row
    match written.result with
    | .ok () => written.after.writeRows rows
    | .error cause => .fail cause written.after

def flush (w : Writer) : Except Failure Unit := w.sink.flush

end Writer

end Tabular
