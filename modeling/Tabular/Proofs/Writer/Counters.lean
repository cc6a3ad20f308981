import Tabular.Proofs.Dialect
import Tabular.Proofs.Writer.Calls

/-! # The counters of a writer

The width and the ragged rows of a writer are those of the rows that have a line, whether the sink
took the line or not. A sink is full from the first line that it does not take, so the rows that
were written stand before all that were refused. The counters differ from those of the rows written
exactly when one of the refused rows is wider or narrower than the first that was written, or none
was.
-/
namespace Tabular

def Sink.IsFull (s : Sink) : Prop := ∃ total, s.capacity = some total ∧ total ≤ s.bytes.size

/-- A full sink takes nothing, and a sink that fails is full afterwards. -/
theorem Sink.write_cases (s : Sink) (data : ByteArray) :
    ((s.write data).result = .ok () ∧ (s.IsFull → data.size = 0)) ∨
      ∃ cause, (s.write data).result = .error cause ∧ (s.write data).after.IsFull := by
  cases hcap : s.capacity with
  | none =>
    refine .inl ⟨by simp [write, hcap, Outcome.done], ?_⟩
    rintro ⟨total, htotal, -⟩
    cases hcap.symm.trans htotal
  | some total =>
    by_cases hroom : data.size ≤ total - s.bytes.size
    · refine .inl ⟨by simp [write, hcap, hroom, Outcome.done], ?_⟩
      rintro ⟨total', htotal, hfull⟩
      cases hcap.symm.trans htotal
      omega
    · refine .inr ⟨failure "failed to write whole buffer", ?_, total, ?_, ?_⟩
      · simp [write, hcap, hroom, Outcome.fail]
      · simp [write, hcap, hroom, Outcome.fail]
      · simp only [write, hcap, hroom, ↓reduceIte, Outcome.fail, ByteArray.size_append,
          ByteArray.size_extract]
        omega

namespace Writer

def attempt (w : Writer) (rows : List Row) : Writer :=
  rows.foldl (fun w row => (w.writeRow row).after) w

def accepted (w : Writer) : List Row → List Row
  | [] => []
  | row :: rows =>
    let tried := w.writeRow row
    if tried.result.isOk then row :: tried.after.accepted rows else tried.after.accepted rows

def formattable (d : Dialect) (rows : List Row) : List Row :=
  rows.filter fun row => (formatRow d row).isOk

variable {d : Dialect} {w : Writer} {row : Row} {taken refused : List Row}

theorem accepted_cons_of_ok (h : (w.writeRow row).result = .ok ()) (rows : List Row) :
    w.accepted (row :: rows) = row :: (w.writeRow row).after.accepted rows := by
  simp [accepted, h, Except.isOk, Except.toBool]

theorem accepted_cons_of_error {cause : Failure} (h : (w.writeRow row).result = .error cause)
    (rows : List Row) : w.accepted (row :: rows) = (w.writeRow row).after.accepted rows := by
  simp [accepted, h, Except.isOk, Except.toBool]

theorem formattable_cons_of_ok {line : String} (h : formatRow d row = .ok line) (rows : List Row) :
    formattable d (row :: rows) = row :: formattable d rows := by
  simp [formattable, h, Except.isOk, Except.toBool]

theorem formattable_cons_of_error {cause : Failure} (h : formatRow d row = .error cause)
    (rows : List Row) : formattable d (row :: rows) = formattable d rows := by
  simp [formattable, h, Except.isOk, Except.toBool]

theorem toUTF8_size_ne_zero (hd : d.Valid) {line : String} (h : formatRow d row = .ok line) :
    line.toUTF8.size ≠ 0 := by
  obtain ⟨pieces, -, rfl⟩ := formatRow_eq_ok.mp h
  have hterm : d.terminator.utf8ByteSize ≠ 0 := by simpa using hd.terminator_ne_empty
  simp only [String.toUTF8_eq_toByteArray, String.size_toByteArray, String.utf8ByteSize_append]
  omega

/-- The sink took the rows of `taken`, then refused those of `refused`. Both are counted. -/
structure HasTried (d : Dialect) (taken refused : List Row) (w : Writer) : Prop where
  dialect : w.dialect = d
  full : refused ≠ [] → w.sink.IsFull
  width : w.width = (taken ++ refused).head?.map List.length
  ragged : w.ragged.size = raggedCount (taken ++ refused)

namespace HasTried

theorem init (sink : Sink) : HasTried d [] [] { dialect := d, sink := sink } :=
  ⟨rfl, fun h => absurd rfl h, rfl, rfl⟩

theorem writeRow_of_error (h : HasTried d taken refused w) {cause : Failure}
    (hrow : formatRow d row = .error cause) :
    (w.writeRow row).result = .error cause ∧ HasTried d taken refused (w.writeRow row).after := by
  rw [← h.dialect] at hrow
  rw [Writer.writeRow_of_error hrow]
  exact ⟨rfl, h.dialect, h.full, h.width, h.ragged⟩

theorem writeRow_of_ok (hd : d.Valid) (h : HasTried d taken refused w) {line : String}
    (hrow : formatRow d row = .ok line) :
    ((w.writeRow row).result = .ok () ∧ refused = [] ∧
        HasTried d (taken ++ [row]) [] (w.writeRow row).after) ∨
      ∃ cause, (w.writeRow row).result = .error cause ∧
        HasTried d taken (refused ++ [row]) (w.writeRow row).after := by
  have hsize := toUTF8_size_ne_zero hd hrow
  obtain ⟨hwidth, hragged⟩ := noteWidth_counts h.width h.ragged row
  rw [List.append_assoc] at hwidth hragged
  have hdialect := (noteWidth_dialect w row.length).trans h.dialect
  rw [← h.dialect] at hrow
  rw [Writer.writeRow_of_ok hrow]
  rcases w.sink.write_cases line.toUTF8 with ⟨hsent, hroom⟩ | ⟨cause, hsent, hfull⟩
  · obtain rfl : refused = [] := by
      cases refused with
      | nil => rfl
      | cons first later => exact absurd (hroom (h.full (List.cons_ne_nil first later))) hsize
    exact .inl ⟨hsent, rfl, hdialect, fun hne => absurd rfl hne, by simpa using hwidth,
      by simpa using hragged⟩
  · exact .inr ⟨cause, hsent, hdialect, fun _ => hfull, hwidth, hragged⟩

/-- Once a row is refused, every later one is. -/
theorem attempt (hd : d.Valid) (h : HasTried d taken refused w) (rows : List Row) :
    ∃ later, formattable d rows = w.accepted rows ++ later ∧
      (refused ≠ [] → w.accepted rows = []) ∧
      HasTried d (taken ++ w.accepted rows) (refused ++ later) (w.attempt rows) := by
  induction rows generalizing taken refused w with
  | nil => exact ⟨[], rfl, fun _ => rfl, by simpa [accepted, Writer.attempt] using h⟩
  | cons row rows ih =>
    cases hrow : formatRow d row with
    | error cause =>
      obtain ⟨hresult, hafter⟩ := h.writeRow_of_error hrow
      rw [accepted_cons_of_error hresult, formattable_cons_of_error hrow]
      exact ih hafter
    | ok line =>
      rw [formattable_cons_of_ok hrow]
      rcases h.writeRow_of_ok hd hrow with ⟨hresult, rfl, hafter⟩ | ⟨cause, hresult, hafter⟩
      · obtain ⟨later, hrows, -, htried⟩ := ih hafter
        rw [accepted_cons_of_ok hresult]
        refine ⟨later, by rw [hrows, List.cons_append], fun hne => absurd rfl hne, ?_⟩
        simpa [Writer.attempt] using htried
      · -- The row just refused leaves the sink full, so none of the later rows is taken.
        obtain ⟨later, hrows, hnone, htried⟩ := ih hafter
        have hempty := hnone (by simp)
        rw [accepted_cons_of_error hresult]
        rw [hempty] at hrows htried ⊢
        refine ⟨row :: later, by rw [hrows, List.nil_append, List.nil_append], fun _ => rfl, ?_⟩
        simpa [Writer.attempt] using htried

end HasTried

/-- Rows behind others leave the counters alone if they are as wide as the first. -/
theorem counts_append_iff (taken refused : List Row) :
    ((taken ++ refused).head?.map List.length = taken.head?.map List.length ∧
        raggedCount (taken ++ refused) = raggedCount taken) ↔
      ∀ row ∈ refused, taken.head?.map List.length = some row.length := by
  cases taken with
  | nil =>
    cases refused with
    | nil => simp
    | cons first later =>
      constructor
      · rintro ⟨hwidth, -⟩
        cases hwidth
      · intro h
        cases h first List.mem_cons_self
  | cons first later =>
    have hzero : refused.countP (fun row => row.length ≠ first.length) = 0 ↔
        ∀ row ∈ refused, first.length = row.length := by
      rw [List.countP_eq_zero]
      constructor
      · intro h row hrow
        have hwidth : row.length = first.length := by simpa using h row hrow
        exact hwidth.symm
      · intro h row hrow
        simp [h row hrow]
    simp only [List.cons_append, List.head?_cons, raggedCount, List.countP_append, Option.map_some,
      Option.some.injEq, true_and, ← hzero]
    omega

/-- The width and the ragged rows are those of the rows that have a line. The rows that were written
are the first of them, and the counters are theirs exactly when every row that the sink refused is
as wide as the first that it took. -/
theorem counters_follow_lines {d : Dialect} {sink : Sink} {w : Writer}
    (hw : open? sink d = .ok w) (rows : List Row) :
    let written := w.accepted rows
    let refused := (formattable d rows).drop written.length
    let after := w.attempt rows
    formattable d rows = written ++ refused ∧
      after.width = (formattable d rows).head?.map List.length ∧
      after.ragged.size = raggedCount (formattable d rows) ∧
      ((after.width = written.head?.map List.length ∧ after.ragged.size = raggedCount written) ↔
        ∀ row ∈ refused, written.head?.map List.length = some row.length) := by
  intro written refused after
  obtain ⟨hvalid, rfl⟩ := open?_eq_ok.mp hw
  have hd := Dialect.validate_eq_ok.mp hvalid
  obtain ⟨later, hrows, -, htried⟩ := (HasTried.init sink).attempt hd rows
  have hrefused : refused = later := by
    simp only [refused, hrows]
    exact List.drop_left
  rw [List.nil_append, List.nil_append] at htried
  rw [hrefused]
  refine ⟨hrows, ?_, ?_, ?_⟩
  · rw [hrows]
    exact htried.width
  · rw [hrows]
    exact htried.ragged
  · rw [htried.width, htried.ragged]
    exact counts_append_iff written later

/-- The sink has room for the second row only, the first has no line, and the last two are counted
as if they had been written. -/
theorem counters_follow_lines_unquoted :
    let d : Dialect := { quoting := .none }
    let w : Writer := { dialect := d, sink := { capacity := some 7 } }
    let pair : Row := [.text "a", .text "b"]
    let rows : List Row := [[.text "x,"], pair, [.text "c"], [.int 1, .bool true]]
    w.accepted rows = [pair] ∧ (w.attempt rows).width = some 2 ∧
      (w.attempt rows).ragged.size = 1 ∧ raggedCount [pair] = 0 := by
  intro d w pair rows
  have hw : open? { capacity := some 7 } d = .ok w := rfl
  obtain ⟨-, hwidth, hragged, -⟩ := counters_follow_lines hw rows
  refine ⟨?_, hwidth.trans ?_, hragged.trans ?_, rfl⟩
  all_goals
    subst rows pair w d
    rfl

/-- The first row of all finds no room, and the width is that of this row. -/
theorem refused_row_sets_width :
    let w : Writer := { dialect := .excel, sink := { capacity := some 0 } }
    let row : Row := [.text "a"]
    open? { capacity := some 0 } .excel = .ok w ∧
      (w.writeRow row).result = .error (.device "csv output" "failed to write whole buffer") ∧
      w.width = none ∧ (w.writeRow row).after.width = some 1 :=
  ⟨rfl, rfl, rfl, rfl⟩

end Writer

end Tabular
