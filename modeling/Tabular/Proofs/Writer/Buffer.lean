import Tabular.Proofs.Writer.Row
import Tabular.Writer.Buffer

/-! # What formatting in place leaves of earlier rows

Nothing: whatever stands in the buffer when a row comes in, the answer is the line of that row, or
the cause for which it has none.
-/
namespace Tabular.Writer.Buffer

variable {d : Dialect} {alone : Bool}

/-- The written forms of cells as they join a line, behind cells that came before unless they are
the `first`. -/
def joined (d : Dialect) (first : Bool) (pieces : List (List Char)) : List Char :=
  if first then [d.delimiter].intercalate pieces else pieces.flatMap (d.delimiter :: ·)

theorem joined_cons (first : Bool) (piece : List Char) (pieces : List (List Char)) :
    joined d first (piece :: pieces) =
      (if first then [] else [d.delimiter]) ++ piece ++ joined d false pieces := by
  cases first with
  | false => simp [joined]
  | true =>
    induction pieces generalizing piece with
    | nil => simp [joined]
    | cons next pieces ih =>
      have hnext := ih next
      simp only [joined, if_true, Bool.false_eq_true, if_false] at hnext ⊢
      rw [List.intercalate_cons_cons, hnext]
      simp

theorem addCell_of_error {cell : Cell} {cause : Failure}
    (h : encodeCell d alone cell = .error cause) (b : Buffer) :
    (b.addCell d alone cell).result = .error cause := by
  unfold encodeCell at h
  simp [addCell, h, Outcome.fail]

theorem addCell_of_ok {cell : Cell} {piece : List Char} (h : encodeCell d alone cell = .ok piece)
    (b : Buffer) :
    b.addCell d alone cell =
      .done () { line := b.line ++ String.ofList piece, scratch := cell.render } := by
  unfold encodeCell at h
  simp [addCell, h]

theorem addCells_of_error {row : Row} {cause : Failure}
    (h : row.mapM (encodeCell d alone) = .error cause) (first : Bool) (b : Buffer) :
    (b.addCells d alone first row).result = .error cause := by
  induction row generalizing first b with
  | nil => cases h
  | cons cell row ih =>
    rw [List.mapM_cons] at h
    simp only [addCells]
    cases hcell : encodeCell d alone cell with
    | error cause' =>
      rw [hcell] at h
      cases h
      rw [addCell_of_error hcell]
      rfl
    | ok piece =>
      rw [addCell_of_ok hcell]
      apply ih
      cases hrow : row.mapM (encodeCell d alone) with
      | error cause' =>
        rw [hcell, hrow] at h
        exact h
      | ok pieces =>
        rw [hcell, hrow] at h
        cases h

theorem addCells_of_ok {row : Row} {pieces : List (List Char)}
    (h : row.mapM (encodeCell d alone) = .ok pieces) (first : Bool) (b : Buffer) :
    (b.addCells d alone first row).result = .ok () ∧
      (b.addCells d alone first row).after.line =
        b.line ++ String.ofList (joined d first pieces) := by
  induction row generalizing first b pieces with
  | nil =>
    cases h
    cases first <;> simp [addCells, joined, Outcome.done]
  | cons cell row ih =>
    obtain ⟨piece, others, hcell, hrow, rfl⟩ := mapM_cons_eq_ok.mp h
    simp only [addCells, addCell_of_ok hcell]
    obtain ⟨hresult, hline⟩ := ih hrow false _
    refine ⟨hresult, hline.trans ?_⟩
    rw [joined_cons]
    cases first <;> simp [Outcome.done, String.ofList_append, ← String.append_assoc]

/-- The answer depends on the dialect and the row alone, and the buffer holds the line behind it. -/
theorem format_result (b : Buffer) (row : Row) : (b.format d row).result = formatRow d row := by
  unfold format formatRow
  cases h : row.mapM (encodeCell d (row.length == 1)) with
  | error cause => simp [addCells_of_error h, Outcome.fail]
  | ok pieces =>
    obtain ⟨hresult, hline⟩ := addCells_of_ok h true { b with line := "" }
    simp [hresult, hline, Outcome.done, joined]

theorem format_line {b : Buffer} {row : Row} {line : String} (h : formatRow d row = .ok line) :
    (b.format d row).after.line = line := by
  obtain ⟨pieces, hpieces, rfl⟩ := formatRow_eq_ok.mp h
  obtain ⟨hresult, hline⟩ := addCells_of_ok hpieces true { b with line := "" }
  simp [format, hresult, hline, Outcome.done, joined]

end Tabular.Writer.Buffer
