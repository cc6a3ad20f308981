import Tabular.Keyed.Reader
import Tabular.Keyed.Writer
import Tabular.Proofs.RoundTrip

/-! # Reading keyed rows that were written

A keyed writer writes the rows of a plain one, with the field names in front. A keyed reader takes
that header off and keys each record by it, so it gives back the rows with one entry for each name.
-/
namespace Tabular

open Lines

namespace OrderedMap

variable {κ : Type u} {ν : Type v} {μ : Type w}

def mapValues (f : ν → μ) (m : OrderedMap κ ν) : OrderedMap κ μ :=
  ⟨m.entries.map fun e => (e.1, f e.2)⟩

def tabulate (keys : List κ) (f : κ → ν) : OrderedMap κ ν := ⟨keys.map fun k => (k, f k)⟩

theorem keys_mapValues (f : ν → μ) (m : OrderedMap κ ν) : (m.mapValues f).keys = m.keys := by
  simp [keys, mapValues]

variable [DecidableEq κ]

theorem get?_mapValues (f : ν → μ) (m : OrderedMap κ ν) (k : κ) :
    (m.mapValues f).get? k = (m.get? k).map f := by
  simp [get?, mapValues, List.find?_map, Function.comp_def]

theorem mem_values_of_get? {m : OrderedMap κ ν} {k : κ} {v : ν} (h : m.get? k = some v) :
    v ∈ m.entries.map Prod.snd := by
  obtain ⟨e, he, rfl⟩ := Option.map_eq_some_iff.mp h
  exact List.mem_map_of_mem (List.mem_of_find?_eq_some he)

theorem insert_tabulate (f : κ → ν) (keys : List κ) (k : κ) :
    (tabulate keys.eraseDups f).insert k (f k) = tabulate (keys ++ [k]).eraseDups f := by
  have hkeys : k ∈ (tabulate keys.eraseDups f).keys ↔ k ∈ keys := by
    simp [OrderedMap.keys, tabulate]
  unfold insert
  simp only [hkeys, List.eraseDups_append]
  by_cases hk : k ∈ keys
  · have hsame : ((fun e : κ × ν => if e.1 = k then (e.1, f k) else e) ∘ fun k => (k, f k)) =
        fun k => (k, f k) := by
      funext l
      by_cases hl : l = k <;> simp [hl]
    simp [hk, tabulate, List.removeAll, hsame]
  · simp [hk, tabulate, List.removeAll, List.eraseDups_cons]

end OrderedMap

theorem KeyedRow.foldl_assign (filler : String) (f : String → String) (done names : List String) :
    names.foldl
      (fun row name => ⟨row.fields.insert name (row.rest.headD filler), row.rest.tail⟩)
      (⟨.tabulate done.eraseDups f, names.map f⟩ : KeyedRow) =
      ⟨.tabulate (done ++ names).eraseDups f, []⟩ := by
  induction names generalizing done with
  | nil => simp
  | cons name names ih =>
    simp only [List.foldl_cons, List.map_cons, List.headD_cons, List.tail_cons,
      OrderedMap.insert_tabulate]
    rw [ih, List.append_assoc, List.singleton_append]

/-- A record with one value for each name keys the distinct names, in the order of their first
occurrence. -/
theorem KeyedRow.assign_map (filler : String) (names : List String) (f : String → String) :
    KeyedRow.assign filler names (names.map f) = ⟨.tabulate names.eraseDups f, []⟩ :=
  foldl_assign filler f [] names

namespace KeyedWriter

/-- Without unknown keys, a keyed writer is a plain one of the rows in the order of the names. -/
theorem writeRows_eq {k : KeyedWriter} {rows : List (OrderedMap String Cell)}
    (h : ∀ row ∈ rows, k.unknownKeys row = []) :
    k.writeRows rows =
      ⟨(k.writer.writeRows (rows.map k.arrange)).result,
        { k with writer := (k.writer.writeRows (rows.map k.arrange)).after }⟩ := by
  induction rows generalizing k with
  | nil => rfl
  | cons row rows ih =>
    have hknown : k.unknownKeys row = [] := h row List.mem_cons_self
    have hrow : k.writeRow row = k.writePlain (k.arrange row) := by
      simp [writeRow, hknown]
    simp only [writeRows, hrow, writePlain, List.map_cons, Writer.writeRows]
    cases (k.writer.writeRow (k.arrange row)).result with
    | error cause => rfl
    | ok => exact ih fun row' hmem => h row' (List.mem_cons_of_mem row hmem)

theorem unknownKeys_eq_nil {k : KeyedWriter} {row : OrderedMap String Cell}
    (h : ∀ key ∈ row.keys, key ∈ k.names) : k.unknownKeys row = [] := by
  simpa [unknownKeys] using h

def values (k : KeyedWriter) (row : OrderedMap String String) : List String :=
  k.names.map fun name => (row.get? name).getD k.filler

theorem arrange_mapValues (k : KeyedWriter) (row : OrderedMap String String) :
    k.arrange (row.mapValues .text) = (k.values row).map .text := by
  simp only [arrange, values, List.map_map]
  apply List.map_congr_left
  intro name _
  rw [OrderedMap.get?_mapValues, Function.comp_apply]
  cases row.get? name <;> rfl

theorem mem_values {k : KeyedWriter} {row : OrderedMap String String} {s : String}
    (h : s ∈ k.values row) : s = k.filler ∨ s ∈ row.entries.map Prod.snd := by
  obtain ⟨name, -, rfl⟩ := List.mem_map.mp h
  cases hget : row.get? name with
  | none => exact .inl rfl
  | some v => exact .inr (OrderedMap.mem_values_of_get? hget)

theorem mem_texts {k : KeyedWriter} {rows : List (OrderedMap String String)} {texts : List String}
    {s : String} (htexts : texts ∈ k.names :: rows.map k.values) (hs : s ∈ texts) :
    s ∈ k.filler :: k.names ++ rows.flatMap fun row => row.entries.map Prod.snd := by
  simp only [List.cons_append, List.mem_cons, List.mem_append, List.mem_flatMap]
  rcases List.mem_cons.mp htexts with rfl | hmem
  · exact .inr (.inl hs)
  · obtain ⟨row, hrow, rfl⟩ := List.mem_map.mp hmem
    rcases mem_values hs with hfiller | hvalue
    · exact .inl hfiller
    · exact .inr (.inr ⟨row, hrow, hvalue⟩)

theorem written_eq {k : KeyedWriter} {rows : List (OrderedMap String String)}
    (hheader : k.writeHeader.result = .ok ())
    (hkeys : ∀ row ∈ rows, ∀ key ∈ row.keys, key ∈ k.names) :
    let written := k.writeHeader.after.writeRows (rows.map (·.mapValues .text))
    let plain := k.writer.writeRows (Writer.cellsOf (k.names :: rows.map k.values))
    written.result = plain.result ∧ written.after.writer = plain.after := by
  have hknown : ∀ row ∈ rows.map (·.mapValues Cell.text),
      k.writeHeader.after.unknownKeys row = [] := by
    intro row hrow
    obtain ⟨texts, htexts, rfl⟩ := List.mem_map.mp hrow
    apply unknownKeys_eq_nil
    rw [OrderedMap.keys_mapValues]
    exact hkeys texts htexts
  have hrows : (rows.map (·.mapValues Cell.text)).map k.writeHeader.after.arrange =
      Writer.cellsOf (rows.map k.values) := by
    rw [Writer.cellsOf, List.map_map, List.map_map]
    exact List.map_congr_left fun row _ => k.arrange_mapValues row
  have hfirst : (k.writer.writeRow (k.names.map Cell.text)).result = .ok () := hheader
  intro written plain
  have hplain : plain =
      k.writeHeader.after.writer.writeRows (Writer.cellsOf (rows.map k.values)) := by
    simp only [plain, Writer.cellsOf, List.map_cons, Writer.writeRows, hfirst]
    rfl
  simp only [written, writeRows_eq hknown, hrows, hplain, true_and]

end KeyedWriter

theorem Reader.nextNonBlank_of_ne {r : Reader} (h : r.next.result ≠ some (.ok [])) :
    r.nextNonBlank = r.next := by
  rw [nextNonBlank]
  split
  next after hnext => exact absurd (congrArg Pull.result hnext) h
  next => rfl

namespace KeyedReader

def advance (k : KeyedReader) : Nat → KeyedReader
  | 0 => k
  | n + 1 => k.next.after.advance n

def answer (k : KeyedReader) (n : Nat) : Option (Except Failure KeyedRow) :=
  (k.advance n).next.result

theorem fieldNames_of_answer {k : KeyedReader} {names : List String} (hk : k.names = none)
    (h : k.reader.next.result = some (.ok names)) :
    k.fieldNames = .done names { k with reader := k.reader.next.after, names := some names } := by
  simp [fieldNames, hk, h, setNames]

theorem fieldNames_of_names {k : KeyedReader} {names : List String} (hk : k.names = some names) :
    k.fieldNames = .done names k := by
  simp [fieldNames, hk]

theorem answer_fieldNames {k : KeyedReader} {names : List String}
    (h : k.fieldNames.result = .ok names) (n : Nat) : k.fieldNames.after.answer n = k.answer n := by
  have hafter : k.fieldNames.after.names = some names ∧ k.fieldNames.after.filler = k.filler := by
    unfold fieldNames at h ⊢
    cases hk : k.names with
    | some names' =>
      simp only [hk, Outcome.done, Except.ok.injEq] at h ⊢
      exact ⟨congrArg some h, trivial⟩
    | none =>
      simp only [hk] at h ⊢
      cases hr : k.reader.next.result with
      | none =>
        simp only [hr, Outcome.done, Except.ok.injEq] at h ⊢
        exact ⟨h ▸ rfl, rfl⟩
      | some answer =>
        cases answer with
        | error cause =>
          simp only [hr, Outcome.fail] at h
          cases h
        | ok record =>
          simp only [hr, Outcome.done, Except.ok.injEq] at h ⊢
          exact ⟨h ▸ rfl, rfl⟩
  have hagain := fieldNames_of_names hafter.1
  have hnext : k.fieldNames.after.next = k.next := by
    simp only [next, h, hagain, Outcome.done, hafter.2]
  cases n with
  | zero => exact congrArg Pull.result hnext
  | succ n => simp only [answer, advance, hnext]

theorem next_of_records {k : KeyedReader} {names : List String} {records : List Record}
    (hk : k.names = some names) (hrecords : ∀ record ∈ records, record ≠ [])
    (h : k.reader.next.result = records.head?.map .ok) :
    k.next =
      ⟨records.head?.map fun record => .ok (KeyedRow.assign k.filler names record),
        { k with reader := k.reader.next.after }⟩ := by
  have hfields : k.reader.nextNonBlank = k.reader.next := by
    apply Reader.nextNonBlank_of_ne
    rw [h]
    cases records with
    | nil => simp
    | cons record records => simpa using hrecords record List.mem_cons_self
  simp only [next, fieldNames_of_names hk, Outcome.done, hfields, h]
  cases records <;> rfl

theorem answer_of_records {k : KeyedReader} {names : List String} {records : List Record}
    (hk : k.names = some names) (hrecords : ∀ record ∈ records, record ≠ [])
    (h : ∀ n, k.reader.answer n = records[n]?.map .ok) (n : Nat) :
    k.answer n = records[n]?.map fun record => .ok (KeyedRow.assign k.filler names record) := by
  induction n generalizing k records with
  | zero =>
    have hfirst := h 0
    rw [← List.head?_eq_getElem?] at hfirst ⊢
    exact congrArg Pull.result (next_of_records hk hrecords hfirst)
  | succ n ih =>
    have hfirst := h 0
    rw [← List.head?_eq_getElem?] at hfirst
    have hnext : k.next.after = { k with reader := k.reader.next.after } :=
      congrArg Pull.after (next_of_records hk hrecords hfirst)
    have hrest : ∀ n, k.reader.next.after.answer n = records.tail[n]?.map .ok := by
      intro n
      rw [List.getElem?_tail]
      exact h (n + 1)
    rw [← List.getElem?_tail]
    simp only [answer, advance, hnext]
    -- The names stay, so the records behind the first are those of the reader after one request.
    exact ih hk (fun record hm => hrecords record (List.mem_of_mem_tail hm)) hrest

theorem reads_keyed_rows {k : KeyedReader} {names : List String} {records : List Record}
    (hk : k.names = none) (hrecords : ∀ record ∈ records, record ≠ [])
    (h : ∀ n, k.reader.answer n = (names :: records)[n]?.map .ok) :
    k.fieldNames.result = .ok names ∧
      ∀ n, k.fieldNames.after.answer n =
        records[n]?.map fun record => .ok (KeyedRow.assign k.filler names record) := by
  have hheader := fieldNames_of_answer hk (h 0)
  rw [hheader]
  refine ⟨rfl, answer_of_records rfl hrecords ?_⟩
  intro n
  exact h (n + 1)

end KeyedReader

/-- Keyed rows read back. Once the header and the rows are in a sink that was empty, a keyed reader
that knows no names finds those of the writer, and then one row for each that was written: it has
the distinct names in the order of their first occurrence, each with the value of the row or, where
the row has none, the filler of the writer. It does not matter whether the names are asked for
before the first row. -/
theorem KeyedWriter.keyed_rows_read_back {d : Dialect} {sink : Sink} {w : Writer}
    (hw : Writer.open? sink d = .ok w) (hempty : sink.bytes = .empty)
    (hterm : ∃ n, d.terminator.toList = List.replicate n '\r' ++ ['\n']) (hb : d.BreakFree)
    (hnul : d.delimiter ≠ '\x00' ∧ d.quote ≠ some '\x00' ∧ d.escape ≠ some '\x00')
    (hspace : d.skipInitialSpace = false ∨ d.quoting = .all) (k : KeyedWriter) (hk : k.writer = w)
    (hnames : k.names ≠ []) (rows : List (OrderedMap String String))
    (hkeys : ∀ row ∈ rows, ∀ key ∈ row.keys, key ∈ k.names) (limit : Nat)
    (htexts : ∀ s ∈ k.filler :: k.names ++ rows.flatMap fun row => row.entries.map Prod.snd,
      '\x00' ∉ s.toList ∧ s.length ≤ limit)
    (hheader : k.writeHeader.result = .ok ())
    (hwritten : (k.writeHeader.after.writeRows (rows.map (·.mapValues .text))).result = .ok ()) :
    let out :=
      (k.writeHeader.after.writeRows (rows.map (·.mapValues .text))).after.writer.sink.bytes
    ∃ r, Reader.open? (ofBytes out) d limit = .ok r ∧ ∀ filler,
      let reader : KeyedReader := { reader := r, filler := filler }
      reader.fieldNames.result = .ok k.names ∧
        ∀ n, reader.answer n = reader.fieldNames.after.answer n ∧
          reader.answer n = rows[n]?.map fun row =>
            .ok ⟨.tabulate k.names.eraseDups fun name => (row.get? name).getD k.filler, []⟩ := by
  obtain ⟨hvalid, hwriter⟩ := Writer.open?_eq_ok.mp hw
  have hd : d.Faithful :=
    ⟨Dialect.validate_eq_ok.mp hvalid, hb.separable, hnul.1, hnul.2.1, hnul.2.2, hterm,
      fun h => .inl (hspace.resolve_left (by simp [h]))⟩
  have hdialect : k.writer.dialect = d := by rw [hk, hwriter]
  have hbytes : k.writer.sink.bytes = .empty := by rw [hk, hwriter, hempty]
  obtain ⟨hresult, hafter⟩ := written_eq hheader hkeys
  rw [hresult] at hwritten
  have hback := Writer.answers_of_writeRows_ok hd hspace hdialect hbytes
    (fun texts hmem s hs => htexts s (mem_texts hmem hs)) hwritten
  rw [← hafter] at hback
  refine ⟨_, Reader.open?_eq_ok.mpr ⟨hvalid, rfl⟩, ?_⟩
  intro filler reader
  -- A written row has a field for each name, so none of them is passed over as blank.
  have hrecords : ∀ record ∈ rows.map k.values, record ≠ [] := by
    intro record hrecord
    obtain ⟨row, -, rfl⟩ := List.mem_map.mp hrecord
    simpa [values] using hnames
  obtain ⟨hfound, hanswers⟩ := KeyedReader.reads_keyed_rows (k := reader) rfl hrecords hback
  refine ⟨hfound, fun n => ⟨(KeyedReader.answer_fieldNames hfound n).symm, ?_⟩⟩
  rw [← KeyedReader.answer_fieldNames hfound, hanswers, List.getElem?_map, Option.map_map]
  simp only [Function.comp_def, values, KeyedRow.assign_map]

/-- A name that comes twice, a value that is missing and one that breaks a line. -/
theorem KeyedWriter.keyed_rows_read_back_repeated :
    let d : Dialect := { terminator := "\n" }
    let k : KeyedWriter := { writer := { dialect := d }, names := ["b", "a", "b"], filler := "-" }
    let rows : List (OrderedMap String String) := [⟨[("a", "x,\n")]⟩, ⟨[("a", ""), ("b", "y")]⟩]
    let out :=
      (k.writeHeader.after.writeRows (rows.map (·.mapValues .text))).after.writer.sink.bytes
    ∃ r, Reader.open? (ofBytes out) d 3 = .ok r ∧
      let reader : KeyedReader := { reader := r }
      reader.fieldNames.result = .ok ["b", "a", "b"] ∧
        reader.answer 0 = some (.ok ⟨⟨[("b", "-"), ("a", "x,\n")]⟩, []⟩) ∧
        reader.answer 1 = some (.ok ⟨⟨[("b", "y"), ("a", "")]⟩, []⟩) ∧ reader.answer 2 = none := by
  intro d k rows out
  have hw : Writer.open? {} d = .ok k.writer := rfl
  have hterm : ∃ n, d.terminator.toList = List.replicate n '\r' ++ ['\n'] := ⟨0, by decide⟩
  have hb : d.BreakFree := by decide
  have hheader : k.writeHeader.result = .ok () := by
    subst k d
    rfl
  have hwritten :
      (k.writeHeader.after.writeRows (rows.map (·.mapValues .text))).result = .ok () := by
    subst rows k d
    rfl
  obtain ⟨r, hr, hread⟩ := keyed_rows_read_back hw rfl hterm hb (by decide) (.inl rfl) k rfl
    (by decide) rows (by decide) 3 (by decide) hheader hwritten
  obtain ⟨hnames, hanswers⟩ := hread ""
  exact ⟨r, hr, hnames, (hanswers 0).2, (hanswers 1).2, (hanswers 2).2⟩

end Tabular
