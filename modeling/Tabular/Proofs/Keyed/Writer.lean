import Mathlib.Data.List.TakeWhile
import Tabular.Keyed.Writer
import Tabular.Proofs.Writer.Refusals

/-! # Keys that are no field names

A keyed writer refuses a row for its unknown keys, or writes what the known keys have to say. What
it writes depends on the values of the field names alone and not on the order of the keys. A run of
rows ends at the first that fails, with the lines of the rows before it in the sink.
-/
namespace Tabular

open Lines

namespace OrderedMap

variable {κ : Type u} {ν : Type v} [DecidableEq κ]

def restrict (m : OrderedMap κ ν) (keys : List κ) : OrderedMap κ ν :=
  ⟨m.entries.filter fun e => e.1 ∈ keys⟩

theorem keys_restrict (m : OrderedMap κ ν) (keys : List κ) :
    (m.restrict keys).keys = m.keys.filter (· ∈ keys) := by
  simp [restrict, OrderedMap.keys, List.filter_map, Function.comp_def]

theorem get?_restrict (m : OrderedMap κ ν) {keys : List κ} {k : κ} (h : k ∈ keys) :
    (m.restrict keys).get? k = m.get? k := by
  simp only [get?, restrict, List.find?_filter]
  congr 2
  funext e
  by_cases he : e.1 = k <;> simp [he, h]

theorem mem_keys_iff {m : OrderedMap κ ν} {k : κ} : k ∈ m.keys ↔ m.get? k ≠ none := by
  rw [ne_eq, get?_eq_none_iff, Decidable.not_not]

end OrderedMap

namespace Writer

theorem dialect_writeRow (w : Writer) (row : Row) : (w.writeRow row).after.dialect = w.dialect := by
  cases hline : formatRow w.dialect row with
  | error cause =>
    rw [writeRow_of_error hline]
    rfl
  | ok line =>
    rw [writeRow_of_ok hline]
    exact noteWidth_dialect w row.length

theorem write_of_error {s : Sink} {data : ByteArray} {cause : Failure}
    (h : (s.write data).result = .error cause) :
    cause = Sink.failure "failed to write whole buffer" := by
  cases hcap : s.capacity with
  | none =>
    rw [write_of_unbounded hcap] at h
    cases h
  | some total =>
    by_cases hroom : data.size ≤ total - s.bytes.size
    · simp [Sink.write, hcap, hroom, Outcome.done] at h
    · simpa [Sink.write, hcap, hroom, Outcome.fail, eq_comm] using h

theorem writeRow_ne_extraFields (w : Writer) (row : Row) (listed : List String) :
    (w.writeRow row).result ≠ .error (.extraFields listed) := by
  intro h
  cases hline : formatRow w.dialect row with
  | error cause =>
    rw [writeRow_of_error hline] at h
    rcases formatRow_error_cases hline with ⟨rfl, -⟩ | ⟨rfl, -⟩ <;> cases h
  | ok line =>
    rw [writeRow_of_ok hline] at h
    cases write_of_error h

end Writer

namespace KeyedWriter

variable {k : KeyedWriter} {row row' : OrderedMap String Cell}

theorem unknownKeys_eq (k : KeyedWriter) (row : OrderedMap String Cell) :
    k.unknownKeys row = row.keys.filter (· ∉ k.names) := by
  simp [unknownKeys]

theorem unknownKeys_ne_nil : k.unknownKeys row ≠ [] ↔ ∃ key ∈ row.keys, key ∉ k.names := by
  simp [unknownKeys]

def Refuses (k : KeyedWriter) (row : OrderedMap String Cell) : Prop :=
  k.extras = .refuse ∧ ∃ key ∈ row.keys, key ∉ k.names

theorem writeRow_of_refuses (h : k.Refuses row) :
    k.writeRow row = .fail (.extraFields (k.unknownKeys row)) k :=
  if_pos ⟨h.1, unknownKeys_ne_nil.mpr h.2⟩

theorem writeRow_of_not_refuses (h : ¬ k.Refuses row) :
    k.writeRow row = k.writePlain (k.arrange row) :=
  if_neg fun hunknown => h ⟨hunknown.1, unknownKeys_ne_nil.mp hunknown.2⟩

theorem writeRow_eq_extraFields_iff {listed : List String} :
    (k.writeRow row).result = .error (.extraFields listed) ↔
      k.Refuses row ∧ listed = k.unknownKeys row := by
  by_cases h : k.Refuses row
  · rw [writeRow_of_refuses h]
    simp [Outcome.fail, h, eq_comm]
  · rw [writeRow_of_not_refuses h]
    simp [writePlain, h, Writer.writeRow_ne_extraFields]

theorem arrange_restrict (k : KeyedWriter) (row : OrderedMap String Cell) :
    k.arrange (row.restrict k.names) = k.arrange row := by
  apply List.map_congr_left
  intro name hname
  rw [OrderedMap.get?_restrict row hname]

theorem not_refuses_restrict (k : KeyedWriter) (row : OrderedMap String Cell) :
    ¬ k.Refuses (row.restrict k.names) := by
  rintro ⟨-, key, hkey, hunknown⟩
  rw [OrderedMap.keys_restrict] at hkey
  exact hunknown (by simpa using (List.mem_filter.mp hkey).2)

theorem arrange_congr (h : ∀ key, row.get? key = row'.get? key) :
    k.arrange row = k.arrange row' := by
  apply List.map_congr_left
  intro name _
  rw [h name]

theorem refuses_congr (h : ∀ key, row.get? key = row'.get? key) :
    k.Refuses row ↔ k.Refuses row' := by
  simp only [Refuses, OrderedMap.mem_keys_iff, h]

theorem writeRow_congr (h : ∀ key, row.get? key = row'.get? key) (hrow : ¬ k.Refuses row) :
    k.writeRow row' = k.writeRow row := by
  rw [writeRow_of_not_refuses hrow, arrange_congr h,
    writeRow_of_not_refuses (mt (refuses_congr h).mpr hrow)]

theorem writeRow_ok (h : (k.writeRow row).result = .ok ()) :
    ∃ line, Writer.formatRow k.writer.dialect (k.arrange row) = .ok line ∧
      (k.writeRow row).after.writer.sink.bytes = k.writer.sink.bytes ++ line.toUTF8 := by
  by_cases hrow : k.Refuses row
  · rw [writeRow_of_refuses hrow] at h
    cases h
  · rw [writeRow_of_not_refuses hrow] at h ⊢
    cases hline : Writer.formatRow k.writer.dialect (k.arrange row) with
    | error cause =>
      simp only [writePlain, Writer.writeRow_of_error hline, Outcome.fail] at h
      cases h
    | ok line =>
      simp only [writePlain, Writer.writeRow_of_ok hline] at h ⊢
      exact ⟨line, rfl, Writer.write_of_ok h⟩

def lineOf (k : KeyedWriter) (row : OrderedMap String Cell) : Except Failure String :=
  if k.extras = .refuse ∧ k.unknownKeys row ≠ [] then .error (.extraFields (k.unknownKeys row))
  else Writer.formatRow k.writer.dialect (k.arrange row)

theorem lineOf_of_refuses (h : k.Refuses row) :
    k.lineOf row = .error (.extraFields (k.unknownKeys row)) :=
  if_pos ⟨h.1, unknownKeys_ne_nil.mpr h.2⟩

theorem lineOf_of_not_refuses (h : ¬ k.Refuses row) :
    k.lineOf row = Writer.formatRow k.writer.dialect (k.arrange row) :=
  if_neg fun hunknown => h ⟨hunknown.1, unknownKeys_ne_nil.mp hunknown.2⟩

theorem formatRow_of_isOk (h : (k.lineOf row).isOk = true) :
    Writer.formatRow k.writer.dialect (k.arrange row) = k.lineOf row := by
  by_cases hrow : k.Refuses row
  · rw [lineOf_of_refuses hrow] at h
    cases h
  · exact (lineOf_of_not_refuses hrow).symm

theorem lineOf_writeRow (k : KeyedWriter) (row : OrderedMap String Cell) :
    (k.writeRow row).after.lineOf = k.lineOf := by
  by_cases hrow : k.Refuses row
  · rw [writeRow_of_refuses hrow]
    rfl
  · rw [writeRow_of_not_refuses hrow]
    have hdialect := Writer.dialect_writeRow k.writer (k.arrange row)
    funext later
    simp only [lineOf, writePlain, hdialect]
    rfl

theorem writeRow_cases (hs : k.writer.sink.capacity = none) (row : OrderedMap String Cell) :
    (∃ cause, k.lineOf row = .error cause ∧ (k.writeRow row).result = .error cause ∧
      (k.writeRow row).after.writer.sink = k.writer.sink) ∨
    ∃ line, k.lineOf row = .ok line ∧ (k.writeRow row).result = .ok () ∧
      (k.writeRow row).after.writer.sink =
        { k.writer.sink with bytes := k.writer.sink.bytes ++ line.toUTF8 } := by
  by_cases hrow : k.Refuses row
  · rw [writeRow_of_refuses hrow, lineOf_of_refuses hrow]
    exact .inl ⟨_, rfl, rfl, rfl⟩
  · rw [writeRow_of_not_refuses hrow, lineOf_of_not_refuses hrow]
    simp only [writePlain]
    rcases Writer.writeRow_cases hs (k.arrange row) with ⟨cause, hline, hw⟩ | ⟨line, hline, hw⟩
    · rw [hw]
      exact .inl ⟨cause, hline, rfl, rfl⟩
    · rw [hw]
      exact .inr ⟨line, hline, rfl, rfl⟩

theorem result_writeRow (hs : k.writer.sink.capacity = none) (row : OrderedMap String Cell) :
    (k.writeRow row).result = (k.lineOf row).map fun _ => () := by
  rcases writeRow_cases hs row with ⟨cause, hline, hresult, -⟩ | ⟨line, hline, hresult, -⟩
  · rw [hline, hresult]
    rfl
  · rw [hline, hresult]
    rfl

theorem isOk_writeRow (hs : k.writer.sink.capacity = none) (row : OrderedMap String Cell) :
    (k.writeRow row).result.isOk = (k.lineOf row).isOk := by
  rw [result_writeRow hs]
  cases k.lineOf row <;> rfl

/-- The sink gets the lines of the rows before the first that has none. -/
theorem writeRows_bytes (hs : k.writer.sink.capacity = none)
    (rows : List (OrderedMap String Cell)) :
    ∃ lines, (rows.takeWhile fun row => (k.lineOf row).isOk).map k.lineOf = lines.map .ok ∧
      (k.writeRows rows).after.writer.sink.bytes =
        k.writer.sink.bytes ++ (String.ofList (textOf lines)).toUTF8 := by
  induction rows generalizing k with
  | nil => exact ⟨[], rfl, by simp [writeRows, Outcome.done]⟩
  | cons row rows ih =>
    rcases writeRow_cases hs row with ⟨cause, hline, hresult, hsink⟩ | ⟨line, hline, hresult, hsink⟩
    · refine ⟨[], ?_, ?_⟩
      · simp [hline, Except.isOk, Except.toBool]
      · simp [writeRows, hresult, Outcome.fail, hsink]
    · obtain ⟨lines, hlines, hbytes⟩ := ih (k := (k.writeRow row).after) (by rw [hsink]; exact hs)
      rw [lineOf_writeRow] at hlines
      refine ⟨line :: lines, ?_, ?_⟩
      · rw [List.takeWhile_cons_of_pos (by rw [hline]; rfl), List.map_cons, hline, hlines,
          List.map_cons]
      · simp only [writeRows, hresult]
        rw [hbytes, hsink, textOf_cons, Writer.toUTF8_ofList_append, String.ofList_toList,
          ByteArray.append_assoc]

theorem writeRows_result (hs : k.writer.sink.capacity = none)
    (rows : List (OrderedMap String Cell)) :
    (k.writeRows rows).result =
      (rows.find? fun row => !(k.lineOf row).isOk).elim (.ok ())
        fun row => (k.lineOf row).map fun _ => () := by
  induction rows generalizing k with
  | nil => rfl
  | cons row rows ih =>
    rcases writeRow_cases hs row with ⟨cause, hline, hresult, -⟩ | ⟨line, hline, hresult, hsink⟩
    · simp [writeRows, hresult, hline, Outcome.fail, Except.isOk, Except.toBool, Except.map]
    · have hlater := ih (k := (k.writeRow row).after) (by rw [hsink]; exact hs)
      rw [lineOf_writeRow] at hlater
      rw [List.find?_cons_of_neg (by simp [hline, Except.isOk, Except.toBool]), ← hlater]
      simp only [writeRows, hresult]

/-- Unknown keys. A writer that refuses them fails for them exactly if a row has some, names them in
the order of the row and stays as it was; one that ignores them does what the other does with the
known keys alone. A row that is written has the values of the field names in their order, or the
filler, so the order of its keys does not matter. A sink without bounds gets the lines of the rows
before the first that fails, and of no other. -/
theorem unknown_keys_are_refused_or_ignored (k : KeyedWriter) (row row' : OrderedMap String Cell)
    (rows : List (OrderedMap String Cell)) :
    let refusing : KeyedWriter := { k with extras := .refuse }
    let ignoring : KeyedWriter := { k with extras := .ignore }
    let lineOf (row : OrderedMap String Cell) := Writer.formatRow k.writer.dialect
      (k.names.map fun name => (row.get? name).getD (.text k.filler))
    ((∃ listed, (refusing.writeRow row).result = .error (.extraFields listed)) ↔
      ∃ key ∈ row.keys, key ∉ k.names) ∧
    (∀ listed, (refusing.writeRow row).result = .error (.extraFields listed) →
      listed = row.keys.filter (· ∉ k.names) ∧ (refusing.writeRow row).after = refusing) ∧
    ignoring.writeRow row =
      ⟨(refusing.writeRow (row.restrict k.names)).result,
        { (refusing.writeRow (row.restrict k.names)).after with extras := .ignore }⟩ ∧
    ((k.writeRow row).result = .ok () → ∃ line, lineOf row = .ok line ∧
      (k.writeRow row).after.writer.sink.bytes = k.writer.sink.bytes ++ line.toUTF8) ∧
    ((∀ key, row.get? key = row'.get? key) →
      (∀ listed, (k.writeRow row).result ≠ .error (.extraFields listed)) →
      k.writeRow row' = k.writeRow row) ∧
    (k.writer.sink.capacity = none →
      (∃ lines,
        (rows.takeWhile fun row => (k.writeRow row).result.isOk).map lineOf = lines.map .ok ∧
        (k.writeRows rows).after.writer.sink.bytes =
          k.writer.sink.bytes ++ (String.ofList (textOf lines)).toUTF8) ∧
      (k.writeRows rows).result =
        (rows.find? fun row => !(k.writeRow row).result.isOk).elim (.ok ())
          fun row => (k.writeRow row).result) := by
  intro refusing ignoring lineOf
  refine ⟨?_, ?_, ?_, writeRow_ok, ?_, ?_⟩
  · simp only [writeRow_eq_extraFields_iff, exists_and_left, exists_eq, and_true]
    exact and_iff_right rfl
  · intro listed h
    obtain ⟨hrow, rfl⟩ := writeRow_eq_extraFields_iff.mp h
    rw [writeRow_of_refuses hrow, unknownKeys_eq]
    exact ⟨rfl, rfl⟩
  · have hignored : ¬ ignoring.Refuses row := fun h => nomatch h.1
    rw [writeRow_of_not_refuses hignored,
      writeRow_of_not_refuses (not_refuses_restrict refusing row),
      arrange_restrict refusing row]
    rfl
  · intro h hresult
    apply writeRow_congr h
    intro hrow
    exact hresult _ (writeRow_eq_extraFields_iff.mpr ⟨hrow, rfl⟩)
  · intro hs
    obtain ⟨lines, hlines, hbytes⟩ := writeRows_bytes hs rows
    simp only [isOk_writeRow hs]
    refine ⟨⟨lines, ?_, hbytes⟩, ?_⟩
    · rw [← hlines]
      apply List.map_congr_left
      intro row hrow
      have hline := List.mem_takeWhile_imp hrow
      exact formatRow_of_isOk hline
    · simp only [writeRows_result hs, result_writeRow hs]

/-- Two rows that are equal but for the order of their keys, of which one is no field name, and a
field name that comes twice; the second row of the run cannot be written. -/
theorem unknown_keys_are_refused_or_ignored_unquoted :
    let w : Writer := { dialect := { quoting := .none } }
    let k : KeyedWriter :=
      { writer := w, names := ["b", "a", "b"], filler := "-", extras := .ignore }
    let row : OrderedMap String Cell := ⟨[("a", .int 1), ("z", .absent), ("b", .text "x")]⟩
    let row' : OrderedMap String Cell := ⟨[("z", .absent), ("b", .text "x"), ("a", .int 1)]⟩
    let bad : OrderedMap String Cell := ⟨[("a", .text ",")]⟩
    ({ k with extras := .refuse }.writeRow row).result = .error (.extraFields ["z"]) ∧
      (k.writeRow row).result = .ok () ∧ k.writeRow row' = k.writeRow row ∧
      (k.writeRows [row, bad, row']).result = .error .escapeRequired ∧
      (k.writeRows [row, bad, row']).after.writer.sink.bytes = "x,1,x\r\n".toUTF8 := by
  intro w k row row' bad
  obtain ⟨hrefused, hlisted, -, -, hsame, hrows⟩ :=
    unknown_keys_are_refused_or_ignored k row row' [row, bad, row']
  have hunknown : ∃ key ∈ row.keys, key ∉ k.names := ⟨"z", by decide, by decide⟩
  obtain ⟨listed, hresult⟩ := hrefused.mpr hunknown
  obtain ⟨rfl, -⟩ := hlisted listed hresult
  have hok : (k.writeRow row).result = .ok () := by
    subst row k w
    rfl
  have hkeys : ∀ key, row.get? key = row'.get? key := by
    intro key
    by_cases hz : "z" = key
    · subst key
      rfl
    · by_cases hb : "b" = key
      · subst key
        rfl
      · simp [row, row', OrderedMap.get?, hz, hb, List.find?_cons]
  obtain ⟨⟨lines, hlines, hbytes⟩, hend⟩ := hrows rfl
  have hwritten : lines = ["x,1,x\r\n"] := by
    apply (List.map_inj_right fun _ _ => Except.ok.inj).mp
    rw [← hlines]
    subst row row' bad k w
    rfl
  refine ⟨hresult, hok, hsame hkeys (by simp [hok]), hend.trans ?_, ?_⟩
  · subst row row' bad k w
    rfl
  · rw [hbytes, hwritten]
    rfl

end KeyedWriter

end Tabular
