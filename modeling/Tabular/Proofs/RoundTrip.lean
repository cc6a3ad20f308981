import Tabular.Proofs.Reader.Progress
import Tabular.Proofs.RoundTrip.Cell
import Tabular.Proofs.Writer

/-! # Reading what was written

A reader of the same dialect gives back the rows that a writer wrote, one record a row, whatever the
texts of their cells are. It counts as many lines as there are line feeds in the bytes written.
-/
namespace Tabular

open Lines

namespace Writer

variable {d : Dialect}

theorem encodeChar_head (hd : d.Faithful) {c : Char} (hc : Unquotable d c)
    (hescape : needsEscape d c = true → ∃ e, d.escape = some e) :
    ∃ b rest, encodeChar d c = b :: rest ∧ isBreak b = false := by
  cases hn : needsEscape d c with
  | true =>
    obtain ⟨e, he⟩ := hescape hn
    have hbreak := hd.isBreak_of_bareEscape (hc.quoting_eq_none hn) (Dialect.isEscape_iff.mpr he)
    exact ⟨e, [c], encodeChar_of_needsEscape hn he, hbreak⟩
  | false =>
    have hplain := hc.plain hn
    exact ⟨c, [], encodeChar_of_plain hn hplain.not_quote, hplain.not_break⟩

theorem Encodes.head (hd : d.Faithful) {alone : Bool} {cell : Cell} {piece : List Char}
    (h : Encodes d alone cell piece) :
    piece = [] ∧ alone = false ∨ ∃ b rest, piece = b :: rest ∧ isBreak b = false := by
  cases h with
  | quoted hq _ => exact .inr ⟨_, _, rfl, hd.isBreak_of_isQuote hq⟩
  | unquoted halone hescape _ hplain =>
    unfold bodyOf
    cases htext : cell.render.toList with
    | nil => exact .inl ⟨rfl, Bool.eq_false_iff.mpr fun ha => halone ha htext⟩
    | cons c text =>
      have hmem : c ∈ cell.render.toList := htext ▸ List.mem_cons_self
      obtain ⟨b, rest, hchar, hbreak⟩ := encodeChar_head hd (hplain c hmem) (hescape c hmem)
      exact .inr ⟨b, rest ++ text.flatMap (encodeChar d), by simp [hchar], hbreak⟩

/-- The line of a row with cells starts with no line break, and so reads as no empty record. -/
theorem row_head (hd : d.Faithful) {row : Row} (hrow : row ≠ [])
    {pieces : List (List Char)}
    (h : row.mapM (encodeCell d (row.length == 1)) = .ok pieces) :
    ∃ b rest, [d.delimiter].intercalate pieces = b :: rest ∧ isBreak b = false := by
  cases row with
  | nil => exact absurd rfl hrow
  | cons cell row =>
    obtain ⟨first, others, hfirst, hothers, rfl⟩ := mapM_cons_eq_ok.mp h
    have hhead := (encodes_of_encodeCell hd.valid hfirst).head hd
    cases row with
    | nil =>
      cases hothers
      rcases hhead with ⟨-, halone⟩ | ⟨b, rest, rfl, hbreak⟩
      · simp at halone
      · exact ⟨b, rest, List.intercalate_singleton, hbreak⟩
    | cons next row =>
      obtain ⟨second, others', -, -, rfl⟩ := mapM_cons_eq_ok.mp hothers
      rw [List.intercalate_cons_cons]
      rcases hhead with ⟨rfl, -⟩ | ⟨b, rest, rfl, hbreak⟩
      · exact ⟨d.delimiter, _, rfl, hd.valid.delimiter_not_break⟩
      · exact ⟨b, _, rfl, hbreak⟩

end Writer

namespace Reader

open Writer Machine

variable {d : Dialect} {limit : Nat} {back : Cell → String}

namespace Machine

theorem reads_row (hd : d.Faithful) {alone : Bool} {cell : Cell} {row : Row}
    {pieces : List (List Char)} (hcells : ∀ c ∈ cell :: row, ReadsAs d limit c (back c).toList)
    (h : (cell :: row).mapM (encodeCell d alone) = .ok pieces) (done : Array String) :
    ∃ m before text,
      Reads d limit (.of .startField done #[] false) ([d.delimiter].intercalate pieces) m ∧
      m.Holds before text ∧
      (before.push (String.ofList text)).toList = done.toList ++ (cell :: row).map back := by
  -- On the cells behind the first; a delimiter moves the field that was read over to `done`.
  induction row generalizing cell pieces done with
  | nil =>
    obtain ⟨piece, others, hpiece, hothers, rfl⟩ := mapM_cons_eq_ok.mp h
    rw [List.mapM_nil] at hothers
    cases hothers
    obtain ⟨m, hreads, hm, -⟩ := hcells cell List.mem_cons_self hpiece done
    refine ⟨m, done, (back cell).toList, ?_, hm, by simp⟩
    rw [List.intercalate_singleton]
    exact hreads
  | cons next row ih =>
    obtain ⟨piece, others, hpiece, hothers, rfl⟩ := mapM_cons_eq_ok.mp h
    obtain ⟨m, hreads, hm, hspace⟩ := hcells cell List.mem_cons_self hpiece done
    obtain ⟨m', before, text, hrest, hm', hfields⟩ :=
      ih (fun c hc => hcells c (List.mem_cons_of_mem cell hc)) hothers (done.push (back cell))
    refine ⟨m', before, text, ?_, hm', by rw [hfields]; simp⟩
    obtain ⟨second, others', -, -, rfl⟩ := mapM_cons_eq_ok.mp hothers
    have hdelim : m.step d limit (some d.delimiter) =
        .ok (.of .startField (done.push (back cell)) #[] false) := by
      rw [hm.step_delimiter hd.valid hspace, closed, String.ofList_toList]
    have hne := ne_lineFeed_of_isBreak hd.valid.delimiter_not_break
    rw [List.intercalate_cons_cons, List.append_assoc]
    exact hreads.append (.cons hd.delimiter_ne_nul hdelim (fun hb => absurd hb hne) hrest)

theorem reads_returns {m m' : Machine} (hm' : m'.state = .afterBreak)
    (h : ∀ c, isBreak c = true → m.step d limit (some c) = .ok m') (n : Nat) :
    ∃ m₁, Reads d limit m (List.replicate n '\r') m₁ ∧ m₁.step d limit (some '\n') = .ok m' := by
  induction n generalizing m with
  | zero => exact ⟨m, .nil, h '\n' rfl⟩
  | succ n ih =>
    obtain ⟨m₁, hreads, hstep⟩ := ih (m := m') fun c hc => step_afterBreak hm' hc
    refine ⟨m₁, .cons (by decide) (h '\r' rfl) (fun hc => absurd hc (by decide)) hreads, hstep⟩

theorem reads_formatRow (hd : d.Faithful) {row : Row} {line : String}
    (hrow : ∀ cell ∈ row, ReadsAs d limit cell (back cell).toList)
    (h : formatRow d row = .ok line) :
    ∃ text m m', line.toList = text ++ ['\n'] ∧ Reads d limit .empty text m ∧
      m.step d limit (some '\n') = .ok m' ∧ m'.state = .afterBreak ∧
      m'.fields.toList = row.map back := by
  obtain ⟨pieces, hpieces, rfl⟩ := formatRow_eq_ok.mp h
  obtain ⟨n, hterm⟩ := hd.terminator
  have hline : (String.ofList ([d.delimiter].intercalate pieces) ++ d.terminator).toList =
      ([d.delimiter].intercalate pieces ++ List.replicate n '\r') ++ ['\n'] := by
    simp [hterm]
  cases row with
  | nil =>
    cases hpieces
    have hblank : ∀ c, isBreak c = true →
        step d limit .empty (some c) = .ok (goto .empty .afterBreak) := fun c hc =>
      step_of_move (by simp [Action.ofChar, hc])
    obtain ⟨m, hreads, hstep⟩ := reads_returns rfl hblank n
    exact ⟨_, m, _, hline, hreads, hstep, rfl, rfl⟩
  | cons cell row =>
    obtain ⟨m, before, text, hreads, hm, hfields⟩ := reads_row hd hrow hpieces #[]
    have hend : ∀ c, isBreak c = true →
        m.step d limit (some c) = .ok (closed .afterBreak before text) := fun c hc =>
      hm.step_break hd.valid hd.separable hc
    obtain ⟨m', hreturns, hstep⟩ := reads_returns rfl hend n
    obtain ⟨b, rest, hhead, hbreak⟩ :=
      row_head hd (List.cons_ne_nil cell row) hpieces
    refine ⟨_, m', _, hline, ?_, hstep, rfl, by simpa [closed] using hfields⟩
    -- A record starts in a state of its own, which differs at line breaks only.
    rw [hhead] at hreads ⊢
    exact (hreads.of_startField hbreak).append hreturns

end Machine

/-- A request at the start of a written line gives back the row and goes to the next line. -/
theorem Cursor.pull_formatRow {r : Cursor} (hd : r.dialect.Faithful) {row : Row} {line : String}
    (hrow : ∀ cell ∈ row, ReadsAs r.dialect r.limit cell (back cell).toList)
    (h : formatRow r.dialect row = .ok line) (n : Nat) (rest : List Char) :
    r.pull .empty n (itemsOf (line.toList ++ rest)) =
      ⟨some (.ok (row.map back)),
        { r with source := itemsOf rest, lineNum := n + line.toList.count '\n' }⟩ := by
  obtain ⟨text, m, m', hline, hreads, hstep, hstate, hfields⟩ := reads_formatRow hd hrow h
  have hpull := Cursor.pull_of_reads hreads hstep (step_end_afterBreak hstate) rfl n rest
  have hcount : line.toList.count '\n' = text.count '\n' + 1 := by
    simp [hline, List.count_append]
  rw [hcount, hline, List.append_assoc]
  exact hpull.trans (by simp [hfields, Nat.add_assoc])

/-- The answers of `r` are `records` and then nothing, and they take `n` lines in all. -/
structure ReadsBack (r : Reader) (records : List Record) (n : Nat) : Prop where
  answers : ∀ k, r.answer k = records[k]?.map .ok
  lines : ∀ k, records.length ≤ k → (r.advance k).lineNum = r.lineNum + n

theorem readsBack_nil {r : Reader} (hs : r.source = []) : r.ReadsBack [] 0 := by
  constructor
  · intro k
    rw [answer_eq]
    exact (Cursor.next_of_source_nil (Cursor.advance_of_source_nil hs k).1).1
  · intro k _
    rw [toCursor_advance]
    exact (Cursor.advance_of_source_nil hs k).2

theorem readsBack_cons {r : Reader} {record : Record} {records : List Record} {n n' : Nat}
    (hresult : r.next.result = some (.ok record)) (hlines : r.next.after.lineNum = r.lineNum + n)
    (h : r.next.after.ReadsBack records n') : r.ReadsBack (record :: records) (n + n') := by
  constructor
  · intro k
    cases k with
    | zero => exact hresult
    | succ k => exact h.answers k
  · intro k hk
    cases k with
    | zero => exact absurd hk (by simp)
    | succ k =>
      have hrest : (r.advance (k + 1)).lineNum = r.next.after.lineNum + n' :=
        h.lines k (Nat.le_of_succ_le_succ hk)
      omega

theorem readsBack_lines {r : Reader} (hd : r.dialect.Faithful) (hr : r.exhausted = false)
    {rows : List Row}
    (hrows : ∀ row ∈ rows, ∀ cell ∈ row, ReadsAs r.dialect r.limit cell (back cell).toList)
    {lines : List String} (h : rows.map (formatRow r.dialect) = lines.map .ok)
    (hsource : r.source = itemsOf (textOf lines)) :
    r.ReadsBack (rows.map (List.map back)) ((textOf lines).count '\n') := by
  induction rows generalizing r lines with
  | nil =>
    cases lines with
    | nil => exact readsBack_nil hsource
    | cons line lines => cases h
  | cons row rows ih =>
    cases lines with
    | nil => cases h
    | cons line lines =>
      simp only [List.map_cons, List.cons.injEq] at h
      have hnext : r.next.forget = ⟨some (.ok (row.map back)),
          { r.toCursor with
            source := itemsOf (textOf lines)
            lineNum := r.lineNum + line.toList.count '\n' }⟩ := by
        rw [next_forget, Cursor.next, if_neg (by simp [hr]), hsource, textOf_cons]
        exact Cursor.pull_formatRow hd (hrows row List.mem_cons_self) h.1 r.lineNum (textOf lines)
      have hafter : r.next.after.toCursor = _ := congrArg Cursor.Pull.after hnext
      rw [textOf_cons, List.count_append]
      refine readsBack_cons (congrArg Cursor.Pull.result hnext) (by rw [hafter]) (ih ?_ ?_ ?_ ?_ ?_)
      · rw [hafter]
        exact hd
      · rw [hafter]
        exact hr
      · rw [hafter]
        intro row' hm
        exact hrows row' (List.mem_cons_of_mem row hm)
      · rw [hafter]
        exact h.2
      · rw [hafter]

end Reader

namespace Writer

/-- What a writer put into an empty sink reads back as the rows before the first that it refused,
with each cell as the machine reads it. -/
theorem readsBack_writeRows_of_readsAs {d : Dialect} (hd : d.Faithful) {w : Writer}
    {rows : List Row}
    {limit : Nat} {back : Cell → String} (hw : w.dialect = d) (hempty : w.sink.bytes = .empty)
    (hsink : w.sink.capacity = none)
    (hrows : ∀ row ∈ rows, ∀ cell ∈ row,
      Reader.Machine.ReadsAs d limit cell (back cell).toList) :
    (Reader.fresh (ofBytes (w.writeRows rows).after.sink.bytes) d limit).ReadsBack
      ((rows.take (w.written rows)).map (List.map back))
      ((w.writeRows rows).after.sink.bytes.data.toList.count lineFeed) := by
  obtain ⟨lines, hlines, hbytes⟩ := writeRows_bytes hsink rows
  rw [hempty, ByteArray.empty_append] at hbytes
  have hcount : (w.writeRows rows).after.sink.bytes.data.toList.count lineFeed =
      (textOf lines).count '\n' := by
    rw [hbytes, ← count_lineFeed_flatMap]
    simp [List.utf8Encode]
  rw [hcount, hbytes, ofBytes_toUTF8_ofList]
  subst hw
  exact Reader.readsBack_lines hd rfl (fun row hm => hrows row (List.mem_of_mem_take hm)) hlines rfl

theorem readsBack_writeRows {d : Dialect} (hd : d.Faithful) {w : Writer} {rows : List Row}
    {limit : Nat} (hw : w.dialect = d) (hempty : w.sink.bytes = .empty)
    (hsink : w.sink.capacity = none)
    (hrows : ∀ row ∈ rows, ∀ cell ∈ row, cell.Readable d limit) :
    (Reader.fresh (ofBytes (w.writeRows rows).after.sink.bytes) d limit).ReadsBack
      ((rows.take (w.written rows)).map (List.map Cell.render))
      ((w.writeRows rows).after.sink.bytes.data.toList.count lineFeed) := by
  apply readsBack_writeRows_of_readsAs hd hw hempty hsink
  intro row hrow cell hcell
  exact Reader.Machine.readsAs_render hd (hrows row hrow cell hcell)

def cellsOf (rows : List (List String)) : List Row := rows.map (List.map Cell.text)

theorem forall_mem_cellsOf {rows : List (List String)} {p : Cell → Prop} :
    (∀ row ∈ cellsOf rows, ∀ cell ∈ row, p cell) ↔ ∀ row ∈ rows, ∀ s ∈ row, p (.text s) := by
  simp [cellsOf]

theorem map_render_take_cellsOf (rows : List (List String)) (n : Nat) :
    ((cellsOf rows).take n).map (List.map Cell.render) = rows.take n := by
  have hrender : Cell.render ∘ Cell.text = id := rfl
  have hrow : List.map Cell.render ∘ List.map Cell.text = id := by
    funext row
    rw [Function.comp_apply, List.map_map, hrender, List.map_id]
    rfl
  rw [cellsOf, ← List.map_take, List.map_map, hrow, List.map_id]

theorem map_render_cellsOf (rows : List (List String)) :
    (cellsOf rows).map (List.map Cell.render) = rows := by
  have hall := map_render_take_cellsOf rows (cellsOf rows).length
  have hlength : (cellsOf rows).length = rows.length := List.length_map _
  rwa [List.take_length, hlength, List.take_length] at hall

/-- Once rows of texts are in a sink that was empty, bounded or not, they read back as they are. -/
theorem answers_of_writeRows_ok {d : Dialect} (hd : d.Faithful)
    (hspace : d.skipInitialSpace = false ∨ d.quoting = .all) {w : Writer} (hw : w.dialect = d)
    (hempty : w.sink.bytes = .empty) {rows : List (List String)} {limit : Nat}
    (hrows : ∀ row ∈ rows, ∀ s ∈ row, '\x00' ∉ s.toList ∧ s.length ≤ limit)
    (hok : (w.writeRows (cellsOf rows)).result = .ok ()) (k : Nat) :
    (Reader.fresh (ofBytes (w.writeRows (cellsOf rows)).after.sink.bytes) d limit).answer k =
      rows[k]?.map .ok := by
  obtain ⟨lines, hlines, hbytes⟩ := writeRows_bytes_of_ok hok
  rw [hbytes, hempty, ByteArray.empty_append, ofBytes_toUTF8_ofList]
  have hcells : ∀ row ∈ cellsOf rows, ∀ cell ∈ row,
      Reader.Machine.ReadsAs d limit cell cell.render.toList := by
    rw [forall_mem_cellsOf]
    intro row hrow s hs
    obtain ⟨hfree, hlength⟩ := hrows row hrow s hs
    apply Reader.Machine.readsAs_render hd
    exact ⟨hfree, hlength, fun _ h => h, fun h => .inl (hspace.resolve_left (by simp [h]))⟩
  subst hw
  have hback := Reader.readsBack_lines (r := Reader.fresh (itemsOf (textOf lines)) w.dialect limit)
    hd rfl hcells hlines rfl
  rw [hback.answers, map_render_cellsOf]

/-- A writer and a reader of one dialect agree. From the bytes that the writer put into an empty
sink without bounds, the reader has the rows before the first that the writer refused, which are all
rows if it refused none. Then the reader is at the end, with as many lines counted as there are line
feeds among the bytes. -/
theorem written_rows_read_back {d : Dialect} {sink : Sink} {w : Writer} (hw : open? sink d = .ok w)
    (hempty : sink.bytes = .empty) (hsink : sink.capacity = none)
    (hterm : ∃ n, d.terminator.toList = List.replicate n '\r' ++ ['\n']) (hb : d.BreakFree)
    (hnul : d.delimiter ≠ '\x00' ∧ d.quote ≠ some '\x00' ∧ d.escape ≠ some '\x00')
    (hspace : d.skipInitialSpace = false ∨ d.quoting = .all) (rows : List (List String))
    (limit : Nat) (hrows : ∀ row ∈ rows, ∀ s ∈ row, '\x00' ∉ s.toList ∧ s.length ≤ limit) :
    let out := (w.writeRows (cellsOf rows)).after.sink.bytes
    let n := w.written (cellsOf rows)
    ∃ r, Reader.open? (ofBytes out) d limit = .ok r ∧
      (∀ k, r.answer k = (rows.take n)[k]?.map .ok) ∧
      (∀ k, n ≤ k → (r.advance k).lineNum = out.data.toList.count lineFeed) ∧
      ((w.writeRows (cellsOf rows)).result = .ok () → n = rows.length) := by
  obtain ⟨hvalid, hwriter⟩ := open?_eq_ok.mp hw
  have hdialect : w.dialect = d := by rw [hwriter]
  have hbytes : w.sink.bytes = .empty := by rw [hwriter, hempty]
  have hcapacity : w.sink.capacity = none := by rw [hwriter, hsink]
  have hall : d.skipInitialSpace = true → d.quoting = .all := fun h =>
    hspace.resolve_left (by simp [h])
  have hd : d.Faithful :=
    ⟨Dialect.validate_eq_ok.mp hvalid, hb.separable, hnul.1, hnul.2.1, hnul.2.2, hterm,
      fun h => .inl (hall h)⟩
  have hcells : ∀ row ∈ cellsOf rows, ∀ cell ∈ row, cell.Readable d limit := by
    intro row hrow cell hcell
    obtain ⟨texts, htexts, rfl⟩ := List.mem_map.mp hrow
    obtain ⟨s, hs, rfl⟩ := List.mem_map.mp hcell
    obtain ⟨hfree, hlength⟩ := hrows texts htexts s hs
    exact ⟨hfree, hlength, fun _ h => h, fun h => .inl (hall h)⟩
  have hback := readsBack_writeRows hd hdialect hbytes hcapacity hcells
  rw [map_render_take_cellsOf] at hback
  refine ⟨_, Reader.open?_eq_ok.mpr ⟨hvalid, rfl⟩, hback.answers, ?_, ?_⟩
  · intro k hk
    have hlength := List.length_take_le (w.written (cellsOf rows)) rows
    have hlines := hback.lines k (Nat.le_trans hlength hk)
    simpa [Reader.fresh] using hlines
  · intro hok
    simpa [cellsOf] using written_of_writeRows_ok hok

theorem written_rows_read_back_backslash :
    let d : Dialect := { quoting := .none, escape := some '\\', terminator := "\r\n" }
    let w : Writer := { dialect := d }
    let rows := [["a,b\n", "é"], [], [""], ["z"]]
    w.written (cellsOf rows) = 2 ∧
      ∃ r, Reader.open? (ofBytes (w.writeRows (cellsOf rows)).after.sink.bytes) d 4 = .ok r ∧
        r.answer 0 = some (.ok ["a,b\n", "é"]) ∧ r.answer 1 = some (.ok []) ∧
        r.answer 2 = none := by
  intro d w rows
  have hw : open? {} d = .ok w := rfl
  have hterm : ∃ n, d.terminator.toList = List.replicate n '\r' ++ ['\n'] := ⟨1, by decide⟩
  have hb : d.BreakFree := by decide
  obtain ⟨r, hr, hanswer, -⟩ := written_rows_read_back hw rfl rfl hterm hb (by decide) (.inl rfl)
    rows 4 (by decide)
  exact ⟨rfl, r, hr, hanswer 0, hanswer 1, hanswer 2⟩

end Writer

end Tabular
