import Tabular.Reader.Machine

/-! # Reading records

A source of lines is a finite list of items, each a line or the failure that stands in its place.
Bytes are cut into lines after each line feed. A reader turns a source into records, one at a time.
It keeps its machine between requests, in whatever state the last one left it, and resets it before
the next.
-/
namespace Tabular

/-- A line with its terminator, if it has one, or the failure to obtain it. -/
abbrev Item := Except Failure String

namespace Lines

def lineFeed : UInt8 := 10

/-- Cuts bytes after each line feed. `line` holds the bytes since the last cut and `lines` what
was cut off before. -/
def cut : List UInt8 → Array UInt8 → Array (Array UInt8) → Array (Array UInt8)
  | [], line, lines => if line.isEmpty then lines else lines.push line
  | b :: rest, line, lines =>
    if b = lineFeed then cut rest #[] (lines.push (line.push b))
    else cut rest (line.push b) lines

def decode (line : Array UInt8) : Item :=
  match String.fromUTF8? ⟨line⟩ with
  | some text => .ok text
  | none => .error (.device "csv input" "stream did not contain valid UTF-8")

def ofBytes (bytes : ByteArray) : List Item :=
  (cut bytes.data.toList #[] #[]).toList.map decode

def fault (cause : String) : Item := .error (.device "csv input" cause)

end Lines

/-- Where a reader stands in its source, and what it reads by. -/
structure Reader.Cursor where
  source : List Item
  dialect : Dialect
  limit : Nat
  lineNum : Nat := 0
  exhausted : Bool := false

structure Reader extends Reader.Cursor where
  machine : Reader.Machine := .empty

namespace Reader

def defaultLimit : Nat := 128 * 1024

def open? (source : List Item) (dialect : Dialect) (limit : Nat) : Except Failure Reader :=
  match dialect.validate with
  | .ok () => .ok { source := source, dialect := dialect, limit := limit }
  | .error cause => .error cause

structure Pull where
  result : Option (Except Failure Record)
  after : Reader

/-- The answer at the end of the source, where a record need not be open. -/
def lastAnswer : Except Failure (Option Record) → Option (Except Failure Record)
  | .ok none => none
  | .ok (some record) => some (.ok record)
  | .error cause => some (.error cause)

def reset (r : Reader) : Reader := { r with machine := r.machine.reset }

def complete (r : Reader) : List Item → Pull
  | [] =>
    let last := r.machine.conclude r.dialect r.limit
    ⟨lastAnswer last.result, { r with source := [], exhausted := true, machine := last.after }⟩
  | .error cause :: rest => ⟨some (.error cause), { r with source := rest }⟩
  | .ok line :: rest =>
    let r := { r with source := rest, lineNum := r.lineNum + 1 }
    match r.machine.receiveLine r.dialect r.limit line with
    | ⟨.error cause, m⟩ => ⟨some (.error cause), { r with machine := m }⟩
    | ⟨.ok (), m⟩ =>
      if m.state = .startRecord then
        ⟨some (.ok m.fields.toList), { r with machine := m.withoutFields }⟩
      else complete { r with machine := m } rest

def next (r : Reader) : Pull :=
  if r.exhausted then ⟨none, r⟩ else r.reset.complete r.source

theorem complete_cons_source_length_le (r : Reader) (item : Item) (items : List Item) :
    (r.complete (item :: items)).after.source.length ≤ items.length := by
  induction items generalizing r item with
  | nil => cases item <;> simp only [complete] <;> (repeat' split) <;> simp
  | cons next rest ih =>
    cases item with
    | error cause => simp [complete]
    | ok line =>
      rw [complete]
      dsimp only
      split
      · simp
      · split
        · simp
        · exact Nat.le_trans (ih _ _) (Nat.le_succ _)

theorem next_source_length_le (r : Reader) : r.next.after.source.length ≤ r.source.length := by
  unfold next
  split
  · exact Nat.le_refl _
  · cases r.source with
    | nil => simp [complete]
    | cons item items => exact Nat.le_succ_of_le (complete_cons_source_length_le r.reset item items)

/-- An answer other than the end takes at least one item off the source. -/
theorem source_length_lt_of_next {r after : Reader} {answer : Except Failure Record}
    (h : r.next = ⟨some answer, after⟩) : after.source.length < r.source.length := by
  unfold next at h
  split at h
  · simp at h
  · cases hs : r.source with
    | nil =>
      rw [hs] at h
      cases congrArg Pull.result h
    | cons item items =>
      have hle := complete_cons_source_length_le r.reset item items
      rw [hs] at h
      rw [h] at hle
      exact Nat.lt_succ_of_le hle

def nextNonBlank (r : Reader) : Pull :=
  match _h : r.next with
  | ⟨some (.ok []), after⟩ => after.nextNonBlank
  | pull => pull
termination_by r.source.length
decreasing_by exact source_length_lt_of_next _h

theorem source_length_lt_of_nextNonBlank {r after : Reader} {answer : Except Failure Record}
    (h : r.nextNonBlank = ⟨some answer, after⟩) : after.source.length < r.source.length := by
  fun_induction nextNonBlank r with
  | case1 r next hr ih => exact Nat.lt_trans (ih h) (source_length_lt_of_next hr)
  | case2 r hr => exact source_length_lt_of_next h

def pullsOnto (done : Array Pull) (r : Reader) : Array Pull :=
  match _h : r.next with
  | ⟨some answer, after⟩ => pullsOnto (done.push ⟨some answer, after⟩) after
  | ⟨none, after⟩ => done.push ⟨none, after⟩
termination_by r.source.length
decreasing_by exact source_length_lt_of_next _h

def pulls (r : Reader) : List Pull := (pullsOnto #[] r).toList

end Reader

end Tabular
