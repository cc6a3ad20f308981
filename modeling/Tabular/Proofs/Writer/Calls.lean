import Tabular.Proofs.Writer

/-! # Runs of calls on a writer

A writer serves any number of calls, some of which fail in the middle of a row. Every answer is what
a new writer would give, and a sink without bounds has the lines of the rows that were written, in
order, and nothing of any other row. The counters of the writer are those of the same rows.
-/
namespace Tabular.Writer

open Lines

inductive Call where
  | format (row : Row)
  | writeRow (row : Row)
  | writeRows (rows : List Row)

inductive Reply where
  | formatted (answer : Except Failure String)
  | wrote (answer : Except Failure Unit)

def serve (w : Writer) : Call → Reply × Writer
  | .format row => (.formatted (w.format row).result, (w.format row).after)
  | .writeRow row => (.wrote (w.writeRow row).result, (w.writeRow row).after)
  | .writeRows rows => (.wrote (w.writeRows rows).result, (w.writeRows rows).after)

def run (w : Writer) : List Call → List Reply × Writer
  | [] => ([], w)
  | call :: calls =>
    let served := w.serve call
    let later := served.2.run calls
    (served.1 :: later.1, later.2)

def firstFailure (d : Dialect) : List Row → Except Failure Unit
  | [] => .ok ()
  | row :: rows =>
    match formatRow d row with
    | .ok _ => firstFailure d rows
    | .error cause => .error cause

def writable (d : Dialect) (rows : List Row) : List Row :=
  rows.takeWhile fun row => (formatRow d row).isOk

def Call.reply (d : Dialect) : Call → Reply
  | .format row => .formatted (formatRow d row)
  | .writeRow row => .wrote (firstFailure d [row])
  | .writeRows rows => .wrote (firstFailure d rows)

def Call.rows (d : Dialect) : Call → List Row
  | .format _ => []
  | .writeRow row => writable d [row]
  | .writeRows rows => writable d rows

def raggedCount : List Row → Nat
  | [] => 0
  | first :: later => later.countP fun row => row.length ≠ first.length

variable {d : Dialect} {start : ByteArray} {rows : List Row} {w : Writer} {row : Row}

theorem noteWidth_counts (hwidth : w.width = rows.head?.map List.length)
    (hragged : w.ragged.size = raggedCount rows) (row : Row) :
    (w.noteWidth row.length).width = (rows ++ [row]).head?.map List.length ∧
      (w.noteWidth row.length).ragged.size = raggedCount (rows ++ [row]) := by
  cases rows with
  | nil =>
    simp only [noteWidth, hwidth, List.head?_nil, Option.map_none]
    exact ⟨rfl, hragged⟩
  | cons first later =>
    simp only [List.head?_cons, Option.map_some] at hwidth
    simp only [noteWidth, hwidth, List.cons_append, List.head?_cons, Option.map_some]
    by_cases hrow : row.length = first.length
    · rw [if_pos hrow]
      exact ⟨hwidth, by simpa [raggedCount, hrow] using hragged⟩
    · rw [if_neg hrow]
      exact ⟨rfl, by simpa [raggedCount, hrow] using hragged⟩

theorem firstFailure_cons_of_error {cause : Failure} (h : formatRow d row = .error cause)
    (more : List Row) : firstFailure d (row :: more) = .error cause := by
  simp only [firstFailure, h]

theorem firstFailure_cons_of_ok {line : String} (h : formatRow d row = .ok line)
    (more : List Row) : firstFailure d (row :: more) = firstFailure d more := by
  simp only [firstFailure, h]

theorem writable_cons_of_error {cause : Failure} (h : formatRow d row = .error cause)
    (more : List Row) : writable d (row :: more) = [] := by
  apply List.takeWhile_cons_of_neg
  simp [h, Except.isOk, Except.toBool]

theorem writable_cons_of_ok {line : String} (h : formatRow d row = .ok line)
    (more : List Row) : writable d (row :: more) = row :: writable d more := by
  apply List.takeWhile_cons_of_pos
  simp [h, Except.isOk, Except.toBool]

/-- The sink, which held `start` at first, has got the lines of `rows`, and the counters are theirs.
The buffer may hold anything. -/
structure HasWritten (d : Dialect) (start : ByteArray) (rows : List Row) (w : Writer) : Prop where
  dialect : w.dialect = d
  unbounded : w.sink.capacity = none
  bytes : ∃ lines, rows.map (formatRow d) = lines.map .ok ∧
    w.sink.bytes = start ++ (String.ofList (textOf lines)).toUTF8
  width : w.width = rows.head?.map List.length
  ragged : w.ragged.size = raggedCount rows

namespace HasWritten

theorem init {sink : Sink} (hsink : sink.capacity = none) :
    HasWritten d sink.bytes [] { dialect := d, sink := sink } := by
  constructor
  · rfl
  · exact hsink
  · exact ⟨[], rfl, by simp⟩
  · rfl
  · rfl

theorem format (h : HasWritten d start rows w) (row : Row) :
    HasWritten d start rows (w.format row).after :=
  ⟨h.dialect, h.unbounded, h.bytes, h.width, h.ragged⟩

/-- A row is written as a whole or leaves no trace in the sink and the counters. -/
theorem writeRow (h : HasWritten d start rows w) (row : Row) :
    (w.writeRow row).result = firstFailure d [row] ∧
      HasWritten d start (rows ++ writable d [row]) (w.writeRow row).after := by
  rcases writeRow_cases h.unbounded row with ⟨cause, hfail, hrow⟩ | ⟨line, hline, hrow⟩
  · rw [h.dialect] at hfail
    rw [hrow, firstFailure_cons_of_error hfail, writable_cons_of_error hfail, List.append_nil]
    exact ⟨rfl, h.format row⟩
  · rw [h.dialect] at hline
    rw [hrow, firstFailure_cons_of_ok hline, writable_cons_of_ok hline]
    obtain ⟨hwidth, hragged⟩ := noteWidth_counts h.width h.ragged row
    refine ⟨rfl, (noteWidth_dialect w row.length).trans h.dialect, h.unbounded, ?_, hwidth, hragged⟩
    obtain ⟨lines, hlines, hbytes⟩ := h.bytes
    refine ⟨lines ++ [line], ?_, ?_⟩
    · simp [writable, hlines, hline]
    · have htext : textOf (lines ++ [line]) = textOf lines ++ line.toList := by simp [textOf]
      rw [htext, toUTF8_ofList_append, ← ByteArray.append_assoc, ← hbytes, String.ofList_toList]
      rfl

theorem writeRows (h : HasWritten d start rows w) (more : List Row) :
    (w.writeRows more).result = firstFailure d more ∧
      HasWritten d start (rows ++ writable d more) (w.writeRows more).after := by
  induction more generalizing rows w with
  | nil => exact ⟨rfl, by simpa [writable, Writer.writeRows, Outcome.done] using h⟩
  | cons row more ih =>
    obtain ⟨hresult, hafter⟩ := h.writeRow row
    cases hline : formatRow d row with
    | error cause =>
      rw [firstFailure_cons_of_error hline] at hresult ⊢
      rw [writable_cons_of_error hline] at hafter ⊢
      simp only [Writer.writeRows, hresult]
      exact ⟨rfl, hafter⟩
    | ok line =>
      rw [firstFailure_cons_of_ok hline] at hresult ⊢
      rw [writable_cons_of_ok hline] at hafter ⊢
      obtain ⟨hlater, hrows⟩ := ih hafter
      have hnext : w.writeRows (row :: more) = (w.writeRow row).after.writeRows more := by
        simp only [Writer.writeRows, hresult]
        rfl
      rw [hnext]
      exact ⟨hlater, by simpa [writable] using hrows⟩

theorem serve (h : HasWritten d start rows w) (call : Call) :
    (w.serve call).1 = call.reply d ∧
      HasWritten d start (rows ++ call.rows d) (w.serve call).2 := by
  cases call with
  | format row =>
    refine ⟨?_, by simpa [Call.rows, Writer.serve] using h.format row⟩
    rw [Call.reply, ← h.dialect, ← format_result]
    rfl
  | writeRow row =>
    obtain ⟨hresult, hafter⟩ := h.writeRow row
    exact ⟨congrArg Reply.wrote hresult, hafter⟩
  | writeRows more =>
    obtain ⟨hresult, hafter⟩ := h.writeRows more
    exact ⟨congrArg Reply.wrote hresult, hafter⟩

theorem run (h : HasWritten d start rows w) (calls : List Call) :
    (w.run calls).1 = calls.map (Call.reply d) ∧
      HasWritten d start (rows ++ calls.flatMap (Call.rows d)) (w.run calls).2 := by
  induction calls generalizing rows w with
  | nil => exact ⟨rfl, by simpa [Writer.run] using h⟩
  | cons call calls ih =>
    obtain ⟨hreply, hafter⟩ := h.serve call
    obtain ⟨hreplies, hlater⟩ := ih hafter
    refine ⟨?_, by simpa [Writer.run] using hlater⟩
    rw [List.map_cons, ← hreply, ← hreplies]
    rfl

end HasWritten

/-- However calls come in and whichever of them fail, the answer to each depends on the dialect and
on what it was called with alone. Behind them, a sink without bounds has the lines of the rows that
were written and no other byte, the width is that of the first of these rows, and the ragged rows
are the later ones of another width. -/
theorem calls_write_whole_rows {d : Dialect} {sink : Sink} {w : Writer}
    (hw : open? sink d = .ok w) (hsink : sink.capacity = none) (calls : List Call) :
    let rows := calls.flatMap (Call.rows d)
    let after := (w.run calls).2
    (w.run calls).1 = calls.map (Call.reply d) ∧
      (∃ lines, rows.map (formatRow d) = lines.map .ok ∧
        after.sink.bytes = sink.bytes ++ (String.ofList (textOf lines)).toUTF8) ∧
      after.width = rows.head?.map List.length ∧ after.ragged.size = raggedCount rows := by
  obtain ⟨-, rfl⟩ := open?_eq_ok.mp hw
  obtain ⟨hreplies, h⟩ := (HasWritten.init (d := d) hsink).run calls
  rw [List.nil_append] at h
  exact ⟨hreplies, h.bytes, h.width, h.ragged⟩

/-- Two rows fail behind a cell that is in the buffer already, one of them between other rows. -/
theorem calls_write_whole_rows_unquoted :
    let d : Dialect := { quoting := .none }
    let w : Writer := { dialect := d }
    let calls : List Call := [.writeRow [.text "a", .text "b,"], .format [.text "c", .text "d"],
      .writeRow [.int 1, .bool true], .writeRows [[.text "p"], [.text "q", .text ","], [.text "r"]],
      .format [.text "s", .text ","], .writeRow [.absent, .text "t"]]
    (w.run calls).1 =
        [.wrote (.error .escapeRequired), .formatted (.ok "c,d\r\n"), .wrote (.ok ()),
          .wrote (.error .escapeRequired), .formatted (.error .escapeRequired), .wrote (.ok ())] ∧
      (w.run calls).2.sink.bytes = "1,True\r\np\r\n,t\r\n".toUTF8 ∧
      (w.run calls).2.width = some 2 ∧ (w.run calls).2.ragged.size = 1 := by
  intro d w calls
  have hw : open? {} d = .ok w := rfl
  obtain ⟨hreplies, ⟨lines, hlines, hbytes⟩, hwidth, hragged⟩ :=
    calls_write_whole_rows hw rfl calls
  have hrows : (calls.flatMap (Call.rows d)).map (formatRow d) =
      ["1,True\r\n", "p\r\n", ",t\r\n"].map .ok := by
    subst calls w d
    rfl
  rw [hrows] at hlines
  obtain rfl := (List.map_inj_right fun _ _ => Except.ok.inj).mp hlines
  refine ⟨hreplies.trans ?_, hbytes.trans ?_, hwidth.trans ?_, hragged.trans ?_⟩
  all_goals
    subst calls w d
    rfl

end Tabular.Writer
