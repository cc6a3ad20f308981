import Tabular.Proofs.Lines
import Tabular.Proofs.Writer.Buffer
import Tabular.Writer

/-! # What a writer leaves in its sink

A writer stops at the first row that it cannot write. The contents of a sink that takes all it is
given are the lines of the rows before that one.
-/
namespace Tabular.Writer

open Lines

theorem open?_eq_ok {sink : Sink} {d : Dialect} {w : Writer} :
    open? sink d = .ok w ↔ d.validate = .ok () ∧ w = { dialect := d, sink := sink } := by
  unfold open?
  cases hd : d.validate with
  | error cause => simp
  | ok =>
    simp only [Except.ok.injEq, true_and]
    exact eq_comm

def written (w : Writer) : List Row → Nat
  | [] => 0
  | row :: rows =>
    match (w.writeRow row).result with
    | .ok () => (w.writeRow row).after.written rows + 1
    | .error _ => 0

theorem write_of_unbounded {s : Sink} (hs : s.capacity = none) (data : ByteArray) :
    s.write data = .done () { s with bytes := s.bytes ++ data } := by
  simp only [Sink.write, hs]

theorem write_of_ok {s : Sink} {data : ByteArray} (h : (s.write data).result = .ok ()) :
    (s.write data).after.bytes = s.bytes ++ data := by
  unfold Sink.write at h ⊢
  cases hcap : s.capacity with
  | none => rfl
  | some total =>
    simp only [hcap] at h
    by_cases hroom : data.size ≤ total - s.bytes.size
    · simp [hroom, Outcome.done]
    · simp [hroom, Outcome.fail] at h

theorem noteWidth_sink (w : Writer) (n : Nat) : (w.noteWidth n).sink = w.sink := by
  unfold noteWidth
  repeat' split
  all_goals rfl

theorem noteWidth_dialect (w : Writer) (n : Nat) : (w.noteWidth n).dialect = w.dialect := by
  unfold noteWidth
  repeat' split
  all_goals rfl

theorem noteWidth_buffer (w : Writer) (b : Buffer) (n : Nat) :
    ({ w with buffer := b } : Writer).noteWidth n = { w.noteWidth n with buffer := b } := by
  unfold noteWidth
  dsimp only
  split
  · rfl
  · split <;> rfl

theorem format_result (w : Writer) (row : Row) :
    (w.format row).result = formatRow w.dialect row :=
  Buffer.format_result w.buffer row

theorem writeRow_of_error {w : Writer} {row : Row} {cause : Failure}
    (h : formatRow w.dialect row = .error cause) :
    w.writeRow row = .fail cause (w.format row).after := by
  simp only [writeRow, format_result, h]

theorem writeRow_of_ok {w : Writer} {row : Row} {line : String}
    (h : formatRow w.dialect row = .ok line) :
    w.writeRow row =
      ⟨(w.sink.write line.toUTF8).result,
        { w.noteWidth row.length with
          sink := (w.sink.write line.toUTF8).after
          buffer := (w.format row).after.buffer }⟩ := by
  have hline : (w.buffer.format w.dialect row).after.line = line := Buffer.format_line h
  have hnoted : (w.format row).after.noteWidth row.length =
      { w.noteWidth row.length with buffer := (w.format row).after.buffer } :=
    noteWidth_buffer w _ row.length
  simp only [writeRow, format_result, h, hnoted, noteWidth_sink]
  rw [← hline]
  rfl

theorem writeRow_cases {w : Writer} (hs : w.sink.capacity = none) (row : Row) :
    (∃ cause, formatRow w.dialect row = .error cause ∧
      w.writeRow row = .fail cause (w.format row).after) ∨
    ∃ line, formatRow w.dialect row = .ok line ∧
      w.writeRow row = .done ()
        { w.noteWidth row.length with
          sink := { w.sink with bytes := w.sink.bytes ++ line.toUTF8 }
          buffer := (w.format row).after.buffer } := by
  cases hline : formatRow w.dialect row with
  | error cause => exact .inl ⟨cause, rfl, writeRow_of_error hline⟩
  | ok line =>
    refine .inr ⟨line, rfl, ?_⟩
    rw [writeRow_of_ok hline, write_of_unbounded hs]
    rfl

theorem toUTF8_ofList_append (first second : List Char) :
    (String.ofList (first ++ second)).toUTF8 =
      (String.ofList first).toUTF8 ++ (String.ofList second).toUTF8 := by
  simp [String.ofList_append]

/-- The sink gains the lines of the rows before the first that is refused. -/
theorem writeRows_bytes {w : Writer} (hs : w.sink.capacity = none) (rows : List Row) :
    ∃ lines, (rows.take (w.written rows)).map (formatRow w.dialect) = lines.map .ok ∧
      (w.writeRows rows).after.sink.bytes =
        w.sink.bytes ++ (String.ofList (textOf lines)).toUTF8 := by
  induction rows generalizing w with
  | nil => exact ⟨[], rfl, by simp [writeRows, Outcome.done]⟩
  | cons row rows ih =>
    rcases writeRow_cases hs row with ⟨cause, -, hrow⟩ | ⟨line, hline, hrow⟩
    · refine ⟨[], ?_, ?_⟩
      · simp [written, hrow, Outcome.fail]
      · simp only [writeRows, hrow, Outcome.fail]
        simp [format]
    · obtain ⟨lines, hlines, hafter⟩ := ih (w := (w.writeRow row).after) (by rw [hrow]; exact hs)
      rw [hrow] at hlines hafter
      dsimp only [Outcome.done] at hlines hafter
      refine ⟨line :: lines, ?_, ?_⟩
      · simp only [written, hrow, Outcome.done, List.take_succ_cons, List.map_cons, hline]
        rw [← hlines, noteWidth_dialect]
      · simp only [writeRows, hrow, Outcome.done]
        rw [hafter, textOf_cons, toUTF8_ofList_append, String.ofList_toList, ByteArray.append_assoc]

theorem writeRows_bytes_of_ok {w : Writer} {rows : List Row}
    (h : (w.writeRows rows).result = .ok ()) :
    ∃ lines, rows.map (formatRow w.dialect) = lines.map .ok ∧
      (w.writeRows rows).after.sink.bytes =
        w.sink.bytes ++ (String.ofList (textOf lines)).toUTF8 := by
  induction rows generalizing w with
  | nil => exact ⟨[], rfl, by simp [writeRows, Outcome.done]⟩
  | cons row rows ih =>
    cases hline : formatRow w.dialect row with
    | error cause =>
      simp only [writeRows, writeRow_of_error hline, Outcome.fail] at h
      cases h
    | ok line =>
      have hrow := writeRow_of_ok hline
      simp only [writeRows, hrow] at h ⊢
      cases hsent : (w.sink.write line.toUTF8).result with
      | error cause =>
        simp only [hsent, Outcome.fail] at h
        cases h
      | ok =>
        simp only [hsent] at h ⊢
        obtain ⟨lines, hlines, hbytes⟩ := ih h
        refine ⟨line :: lines, ?_, ?_⟩
        · rw [List.map_cons, hline, List.map_cons, ← hlines, noteWidth_dialect]
        · rw [hbytes, write_of_ok hsent, textOf_cons, toUTF8_ofList_append,
            String.ofList_toList, ByteArray.append_assoc]

theorem written_of_writeRows_ok {w : Writer} {rows : List Row}
    (h : (w.writeRows rows).result = .ok ()) : w.written rows = rows.length := by
  induction rows generalizing w with
  | nil => rfl
  | cons row rows ih =>
    simp only [writeRows] at h
    cases hrow : (w.writeRow row).result with
    | error cause => simp [hrow, Outcome.fail] at h
    | ok =>
      rw [hrow] at h
      simp only [written, hrow, List.length_cons, ih h]

theorem writeRows_ok {w : Writer} (hsink : w.sink.capacity = none) {rows : List Row}
    (h : ∀ row ∈ rows, ∃ line, formatRow w.dialect row = .ok line) :
    (w.writeRows rows).result = .ok () := by
  induction rows generalizing w with
  | nil => rfl
  | cons row rows ih =>
    obtain ⟨line, hline⟩ := h row List.mem_cons_self
    rcases writeRow_cases hsink row with ⟨cause, hfail, -⟩ | ⟨line, -, hrow⟩
    · cases hfail.symm.trans hline
    · simp only [writeRows, hrow, Outcome.done]
      apply ih
      · exact hsink
      · intro row' hmem
        rw [noteWidth_dialect]
        exact h row' (List.mem_cons_of_mem row hmem)

/-- An empty sink has the lines of the rows once all of them are written. -/
theorem exists_lines_of_writeRows_ok {w : Writer} (hempty : w.sink.bytes = .empty)
    (hsink : w.sink.capacity = none) {rows : List Row} (hok : (w.writeRows rows).result = .ok ()) :
    ∃ lines, rows.map (formatRow w.dialect) = lines.map .ok ∧
      ofBytes (w.writeRows rows).after.sink.bytes = itemsOf (textOf lines) := by
  obtain ⟨lines, hlines, hbytes⟩ := writeRows_bytes hsink rows
  rw [written_of_writeRows_ok hok, List.take_length] at hlines
  refine ⟨lines, hlines, ?_⟩
  rw [hbytes, hempty, ByteArray.empty_append, ofBytes_toUTF8_ofList]

theorem ofBytes_writeRows {w : Writer} (hempty : w.sink.bytes = .empty)
    (hsink : w.sink.capacity = none) {rows : List Row} {lines : List String}
    (h : rows.map (formatRow w.dialect) = lines.map .ok) :
    (w.writeRows rows).result = .ok () ∧
      ofBytes (w.writeRows rows).after.sink.bytes = itemsOf (textOf lines) := by
  have hok : (w.writeRows rows).result = .ok () := by
    apply writeRows_ok hsink
    intro row hrow
    have hmem : formatRow w.dialect row ∈ lines.map Except.ok := h ▸ List.mem_map_of_mem hrow
    obtain ⟨line, -, hline⟩ := List.mem_map.mp hmem
    exact ⟨line, hline.symm⟩
  obtain ⟨lines', hlines, hout⟩ := exists_lines_of_writeRows_ok hempty hsink hok
  rw [h] at hlines
  obtain rfl : lines = lines' := (List.map_inj_right fun _ _ => Except.ok.inj).mp hlines
  exact ⟨hok, hout⟩

end Tabular.Writer
