import Tabular.Proofs.Decimal.Numeral
import Tabular.Proofs.RoundTrip

/-! # Numbers without quotes

Where every field but a number is quoted, a reader takes an unquoted field for a number. It agrees
with the writer on all cells but one kind: a truth value counts as a number to the writer, while its
text names none. What was written reads back exactly if no truth value stands without quotes.
-/
namespace Tabular

open Lines

namespace Writer

variable {d : Dialect} {cell : Cell}

def Bare (d : Dialect) (cell : Cell) : Prop := ∃ b, cell = .bool b ∧ wraps d cell = false

theorem encodeCell_of_not_wraps (hd : d.Valid) (hquoting : d.quoting ≠ .none)
    (hw : wraps d cell = false) (hne : cell.render.toList ≠ []) {alone : Bool} {piece : List Char}
    (h : encodeCell d alone cell = .ok piece) :
    piece = cell.render.toList ∧ ∀ c ∈ piece, Plain d c := by
  cases encodes_of_encodeCell hd h with
  | quoted hq _ => exact absurd (eq_nil_of_wrapped hw h) hne
  | unquoted _ _ _ hplain =>
    have hchars : ∀ c ∈ cell.render.toList, Plain d c := by
      intro c hc
      exact plain_of_isSpecial ((hplain c hc).resolve_left hquoting)
    have hbody : bodyOf d cell = cell.render.toList := by
      have hchar : ∀ c ∈ cell.render.toList, encodeChar d c = [c] := by
        intro c hc
        exact encodeChar_of_plain (hchars c hc).no_escape (hchars c hc).not_quote
      rw [bodyOf, List.flatMap_def, List.map_congr_left hchar, ← List.flatMap_def,
        List.flatMap_singleton']
    rw [hbody]
    exact ⟨rfl, hchars⟩

end Writer

namespace Reader

open Writer Machine

variable {d : Dialect} {limit : Nat}

namespace Machine

variable {done : Array String}

theorem close_of_not_number {m : Machine} (hn : m.numeric = true)
    (ht : Decimal.isNumber (String.ofList m.field.toList) = false) (next : State) :
    m.close next = .error (.notNumeric (String.ofList m.field.toList)) := by
  simp [close_eq, hn, ht]

theorem reads_plain {text : List Char} (hplain : ∀ c ∈ text, Plain d c) (hnul : '\x00' ∉ text)
    (field : Array Char) (hsize : field.size + text.length ≤ limit) :
    Reads d limit (.of .inField done field true) text
      (.of .inField done (field ++ text.toArray) true) := by
  induction text generalizing field with
  | nil => simpa using Reads.nil
  | cons c text ih =>
    obtain ⟨hc, ht⟩ := List.ne_and_not_mem_of_not_mem_cons hnul
    have hp := hplain c List.mem_cons_self
    simp only [List.length_cons] at hsize
    have hstep : step d limit (.of .inField done field true) (some c) =
        .ok (.of .inField done (field.push c) true) := by
      apply step_of_take
      · simp [Action.ofChar, Action.ofField, hp.not_break, hp.not_escape, hp.ne_delimiter]
      · dsimp only
        omega
    have hrest := ih (fun b hb => hplain b (List.mem_cons_of_mem c hb)) ht (field.push c)
      (by rw [Array.size_push]; omega)
    have hfield : field.push c ++ text.toArray = field ++ (c :: text).toArray := by simp
    rw [← hfield]
    exact .cons hc.symm hstep (fun hb => absurd hb (ne_lineFeed_of_isBreak hp.not_break)) hrest

theorem reads_number (hquoting : d.quoting = .nonNumeric) (hskip : d.skipInitialSpace = false)
    {text : List Char} (hne : text ≠ []) (hplain : ∀ c ∈ text, Plain d c) (hnul : '\x00' ∉ text)
    (hsize : text.length ≤ limit) :
    Reads d limit (.of .startField done #[] false) text (.of .inField done text.toArray true) := by
  cases text with
  | nil => exact absurd rfl hne
  | cons c text =>
    obtain ⟨hc, ht⟩ := List.ne_and_not_mem_of_not_mem_cons hnul
    have hp := hplain c List.mem_cons_self
    simp only [List.length_cons] at hsize
    have hstep : step d limit (.of .startField done #[] false) (some c) =
        .ok (.of .inField done #[c] true) := by
      rw [step_of_start]
      · simp [hquoting]
      · simp [Action.ofChar, Action.ofFieldStart, hp.not_break, hp.not_quote, hp.not_escape,
          hp.ne_delimiter, hskip]
      · exact Nat.lt_of_lt_of_le (Nat.succ_pos _) hsize
    have hrest : Reads d limit (.of .inField done #[c] true) text
        (.of .inField done (#[c] ++ text.toArray) true) :=
      reads_plain (fun b hb => hplain b (List.mem_cons_of_mem c hb)) ht #[c]
        (by simp only [List.size_toArray, List.length_cons, List.length_nil]; omega)
    have hfield : #[c] ++ text.toArray = (c :: text).toArray := by simp
    rw [hfield] at hrest
    exact .cons hc.symm hstep (fun hb => absurd hb (ne_lineFeed_of_isBreak hp.not_break)) hrest

theorem refused_of_bare (hd : d.Valid) (hquoting : d.quoting = .nonNumeric)
    (hskip : d.skipInitialSpace = false) {cell : Cell} (hbare : Bare d cell)
    (hsize : cell.render.toList.length ≤ limit) {alone : Bool} {piece : List Char}
    (h : encodeCell d alone cell = .ok piece) (done : Array String) :
    piece ≠ [] ∧ ∃ m, Reads d limit (.of .startField done #[] false) piece m ∧
      ∀ c, c = d.delimiter ∨ isBreak c = true →
        m.step d limit (some c) = .error (.notNumeric cell.render) := by
  obtain ⟨b, rfl, hw⟩ := hbare
  have hne : (Cell.bool b).render.toList ≠ [] := by cases b <;> decide
  have hnul : '\x00' ∉ (Cell.bool b).render.toList := by cases b <;> decide
  obtain ⟨rfl, hplain⟩ := encodeCell_of_not_wraps hd (by simp [hquoting]) hw hne h
  refine ⟨hne, _, reads_number hquoting hskip hne hplain hnul hsize, ?_⟩
  intro c hc
  have hclose : ∀ next, Machine.close
      (.of .inField done (Cell.bool b).render.toList.toArray true) next =
        .error (.notNumeric (Cell.bool b).render) := by
    intro next
    rw [close_of_not_number rfl]
    · simp
    · simpa using Cell.isNumber_bool b
  rw [step_some]
  rcases hc with rfl | hc
  · simpa [Action.ofChar, Action.ofField, hd.delimiter_not_break, hd.isEscape_delimiter,
      Action.perform] using hclose .startField
  · simpa [Action.ofChar, Action.ofField, hc, Action.perform] using hclose .afterBreak

/-- The machine gets no farther in a row than to the end of a truth value without quotes. -/
theorem refused_of_mem_bare (hd : d.Faithful) (hquoting : d.quoting = .nonNumeric)
    (hskip : d.skipInitialSpace = false) {alone : Bool} {cell : Cell} {row : Row}
    {pieces : List (List Char)}
    (hcells : ∀ c ∈ cell :: row, c.render.toList.length ≤ limit ∧
      (Bare d c ∨ ReadsAs d limit c c.render.toList))
    (h : (cell :: row).mapM (encodeCell d alone) = .ok pieces)
    (hbare : ∃ c ∈ cell :: row, Bare d c) {b : Char} (hb : isBreak b = true) (tail : List Char)
    (done : Array String) :
    ∃ text c rest m cause, [d.delimiter].intercalate pieces ++ b :: tail = text ++ c :: rest ∧
      text ≠ [] ∧ c ≠ '\x00' ∧ Reads d limit (.of .startField done #[] false) text m ∧
      m.step d limit (some c) = .error cause := by
  have hbnul : b ≠ '\x00' := by
    rintro rfl
    cases hb
  induction row generalizing cell pieces done with
  | nil =>
    obtain ⟨piece, others, hpiece, hothers, rfl⟩ := mapM_cons_eq_ok.mp h
    rw [List.mapM_nil] at hothers
    cases hothers
    obtain ⟨c, hc, hbare⟩ := hbare
    obtain rfl := List.mem_singleton.mp hc
    obtain ⟨hne, m, hreads, hrefused⟩ := refused_of_bare hd.valid hquoting hskip hbare
      (hcells c hc).1 hpiece done
    refine ⟨piece, b, tail, m, _, ?_, hne, hbnul, hreads, hrefused b (.inr hb)⟩
    rw [List.intercalate_singleton]
  | cons next row ih =>
    obtain ⟨piece, others, hpiece, hothers, rfl⟩ := mapM_cons_eq_ok.mp h
    obtain ⟨second, others', -, -, rfl⟩ := mapM_cons_eq_ok.mp hothers
    have hform : [d.delimiter].intercalate (piece :: second :: others') ++ b :: tail =
        piece ++ d.delimiter :: ([d.delimiter].intercalate (second :: others') ++ b :: tail) := by
      rw [List.intercalate_cons_cons]
      simp
    obtain ⟨hsize, hcell⟩ := hcells cell List.mem_cons_self
    by_cases hfirst : Bare d cell
    · obtain ⟨hne, m, hreads, hrefused⟩ := refused_of_bare hd.valid hquoting hskip hfirst
        hsize hpiece done
      exact ⟨piece, d.delimiter, _, m, _, hform, hne, hd.delimiter_ne_nul, hreads,
        hrefused _ (.inl rfl)⟩
    · have hmore : ∃ c ∈ next :: row, Bare d c := by
        obtain ⟨c, hc, hbare⟩ := hbare
        rcases List.mem_cons.mp hc with rfl | hc
        · exact absurd hbare hfirst
        · exact ⟨c, hc, hbare⟩
      obtain ⟨m, hreads, hm, hspace⟩ := hcell.resolve_left hfirst hpiece done
      obtain ⟨text, c, rest, m', cause, hsplit, -, hnul, hrest, hrefused⟩ :=
        ih (fun c hc => hcells c (List.mem_cons_of_mem cell hc)) hothers hmore
          (done.push cell.render)
      have hdelim : m.step d limit (some d.delimiter) =
          .ok (.of .startField (done.push cell.render) #[] false) := by
        rw [hm.step_delimiter hd.valid hspace, closed, String.ofList_toList]
      have hne := ne_lineFeed_of_isBreak hd.valid.delimiter_not_break
      refine ⟨piece ++ d.delimiter :: text, c, rest, m', cause, ?_, by simp, hnul, ?_, hrefused⟩
      · rw [hform, hsplit]
        simp
      · exact hreads.append (.cons hd.delimiter_ne_nul hdelim (fun hb => absurd hb hne) hrest)

end Machine

theorem bare_or_readsAs (hd : d.Faithful) (hskip : d.skipInitialSpace = false) {cell : Cell}
    (hnul : '\x00' ∉ cell.render.toList) (hsize : cell.render.toList.length ≤ limit) :
    Bare d cell ∨ ReadsAs d limit cell cell.render.toList := by
  by_cases hbool : ∃ b, cell = .bool b
  · cases hw : wraps d cell with
    | true => exact .inr (readsAs_of_wraps hd hw hnul hsize)
    | false =>
      obtain ⟨b, hb⟩ := hbool
      exact .inl ⟨b, hb, hw⟩
  · right
    apply readsAs_render hd
    constructor
    · exact hnul
    · exact hsize
    · intro _ hnumeric
      exact Cell.isNumber_render hnumeric fun b hb => hbool ⟨b, hb⟩
    · intro hs
      simp [hskip] at hs

theorem Cursor.pull_of_mem_bare {r : Cursor} (hd : r.dialect.Faithful)
    (hquoting : r.dialect.quoting = .nonNumeric) (hskip : r.dialect.skipInitialSpace = false)
    {row : Row} {line : String}
    (hrow : ∀ cell ∈ row, '\x00' ∉ cell.render.toList ∧ cell.render.toList.length ≤ r.limit)
    (hbare : ∃ cell ∈ row, Bare r.dialect cell) (h : formatRow r.dialect row = .ok line) (n : Nat)
    (rest : List Char) :
    ∃ cause, (r.pull .empty n (itemsOf (line.toList ++ rest))).result = some (.error cause) := by
  obtain ⟨pieces, hpieces, rfl⟩ := formatRow_eq_ok.mp h
  cases row with
  | nil =>
    obtain ⟨cell, hcell, -⟩ := hbare
    cases hcell
  | cons cell row =>
    have hcells : ∀ c ∈ cell :: row, c.render.toList.length ≤ r.limit ∧
        (Bare r.dialect c ∨ ReadsAs r.dialect r.limit c c.render.toList) := by
      intro c hc
      obtain ⟨hnul, hsize⟩ := hrow c hc
      exact ⟨hsize, bare_or_readsAs hd hskip hnul hsize⟩
    obtain ⟨b, tail, hterm, hb⟩ : ∃ b tail, r.dialect.terminator.toList = b :: tail ∧
        isBreak b = true := by
      obtain ⟨k, hk⟩ := hd.terminator
      cases k with
      | zero => exact ⟨'\n', [], hk, rfl⟩
      | succ k => exact ⟨'\r', _, hk, rfl⟩
    obtain ⟨text, c, rest', m, cause, hsplit, hne, hnul, hreads, hrefused⟩ :=
      refused_of_mem_bare hd hquoting hskip hcells hpieces hbare hb (tail ++ rest) #[]
    obtain ⟨first, others, hhead, hbreak⟩ :=
      row_head hd (List.cons_ne_nil cell row) hpieces
    have hline : (String.ofList ([r.dialect.delimiter].intercalate pieces) ++
        r.dialect.terminator).toList ++ rest = text ++ c :: rest' := by
      simp [hterm, ← hsplit]
    -- A record starts in a state of its own, which differs at line breaks only.
    have hstart : Reads r.dialect r.limit .empty text m := by
      cases text with
      | nil => exact absurd rfl hne
      | cons c' text =>
        rw [hhead] at hsplit
        obtain rfl : first = c' := (List.cons.inj hsplit).1
        exact hreads.of_startField hbreak
    rw [hline]
    exact ⟨cause, Cursor.pull_of_reads_refused hstart hnul hrefused n rest'⟩

theorem Cursor.not_bare_of_answers {r : Cursor} (hd : r.dialect.Faithful)
    (hquoting : r.dialect.quoting = .nonNumeric) (hskip : r.dialect.skipInitialSpace = false)
    (hr : r.exhausted = false) {rows : List Row}
    (hrows : ∀ row ∈ rows, ∀ cell ∈ row,
      '\x00' ∉ cell.render.toList ∧ cell.render.toList.length ≤ r.limit)
    {lines : List String} (h : rows.map (formatRow r.dialect) = lines.map .ok)
    (hsource : r.source = itemsOf (textOf lines))
    (hanswers : ∀ k, r.answer k = (rows.map (List.map Cell.render))[k]?.map .ok) :
    ∀ row ∈ rows, ∀ cell ∈ row, ¬ Bare r.dialect cell := by
  induction rows generalizing r lines with
  | nil =>
    intro row hrow
    cases hrow
  | cons row rows ih =>
    cases lines with
    | nil => cases h
    | cons line lines =>
      simp only [List.map_cons, List.cons.injEq] at h
      have hnext : r.next = r.pull .empty r.lineNum (itemsOf (line.toList ++ textOf lines)) := by
        rw [next, if_neg (by simp [hr]), hsource, textOf_cons]
      have hfirst : ∀ cell ∈ row, ¬ Bare r.dialect cell := by
        intro cell hcell hbare
        obtain ⟨cause, hcause⟩ := pull_of_mem_bare hd hquoting hskip (hrows row List.mem_cons_self)
          ⟨cell, hcell, hbare⟩ h.1 r.lineNum (textOf lines)
        have hok : r.next.result = some (.ok (row.map Cell.render)) := hanswers 0
        rw [hnext, hcause] at hok
        cases hok
      have hreads : ∀ cell ∈ row, ReadsAs r.dialect r.limit cell cell.render.toList := by
        intro cell hcell
        obtain ⟨hnul, hsize⟩ := hrows row List.mem_cons_self cell hcell
        exact (bare_or_readsAs hd hskip hnul hsize).resolve_left (hfirst cell hcell)
      rw [pull_formatRow hd hreads h.1 r.lineNum (textOf lines)] at hnext
      intro row' hrow'
      rcases List.mem_cons.mp hrow' with rfl | hrow'
      · exact hfirst
      · have hafter : ∀ k, r.next.after.answer k =
            (rows.map (List.map Cell.render))[k]?.map .ok := fun k => hanswers (k + 1)
        let r' : Cursor :=
          { r with
            source := itemsOf (textOf lines)
            lineNum := r.lineNum + line.toList.count '\n' }
        rw [hnext] at hafter
        exact ih (r := r') hd hquoting hskip hr
          (fun row hm => hrows row (List.mem_cons_of_mem _ hm)) h.2 rfl hafter row' hrow'

end Reader

namespace Writer

/-- A writer and a reader agree on rows of cells of every kind where all but numbers are quoted, if
and only if no truth value was written without quotes. -/
theorem nonNumeric_rows_read_back_iff {d : Dialect} {sink : Sink} {w : Writer}
    (hw : open? sink d = .ok w) (hempty : sink.bytes = .empty) (hsink : sink.capacity = none)
    (hquoting : d.quoting = .nonNumeric) (hskip : d.skipInitialSpace = false)
    (hterm : ∃ n, d.terminator.toList = List.replicate n '\r' ++ ['\n']) (hb : d.BreakFree)
    (hnul : d.delimiter ≠ '\x00' ∧ d.quote ≠ some '\x00' ∧ d.escape ≠ some '\x00')
    (rows : List Row) (limit : Nat)
    (hrows : ∀ row ∈ rows, ∀ cell ∈ row,
      '\x00' ∉ cell.render.toList ∧ cell.render.length ≤ limit)
    (hok : (w.writeRows rows).result = .ok ()) :
    ∃ r, Reader.open? (ofBytes (w.writeRows rows).after.sink.bytes) d limit = .ok r ∧
      ((∀ k, r.answer k = (rows.map (List.map Cell.render))[k]?.map .ok) ↔
        ∀ row ∈ rows, ∀ b, Cell.bool b ∈ row → wraps d (.bool b) = true) := by
  obtain ⟨hvalid, hwriter⟩ := open?_eq_ok.mp hw
  have hdialect : w.dialect = d := by rw [hwriter]
  have hbytes : w.sink.bytes = .empty := by rw [hwriter, hempty]
  have hcapacity : w.sink.capacity = none := by rw [hwriter, hsink]
  have hd : d.Faithful :=
    ⟨Dialect.validate_eq_ok.mp hvalid, hb.separable, hnul.1, hnul.2.1, hnul.2.2, hterm,
      fun h => by simp [hskip] at h⟩
  refine ⟨_, Reader.open?_eq_ok.mpr ⟨hvalid, rfl⟩, ?_, ?_⟩
  · intro hanswers row hrow b hmem
    obtain ⟨lines, hlines, hout⟩ := exists_lines_of_writeRows_ok hbytes hcapacity hok
    rw [hdialect] at hlines
    rw [hout] at hanswers
    simp only [Reader.answer_eq, Reader.toCursor_fresh] at hanswers
    have hbare := Reader.Cursor.not_bare_of_answers hd hquoting hskip rfl hrows hlines rfl hanswers
      row hrow _ hmem
    cases hwraps : wraps d (.bool b) with
    | true => rfl
    | false => exact absurd ⟨b, rfl, hwraps⟩ hbare
  · intro hwraps
    have hcells : ∀ row ∈ rows, ∀ cell ∈ row,
        Reader.Machine.ReadsAs d limit cell cell.render.toList := by
      intro row hrow cell hcell
      obtain ⟨hfree, hsize⟩ := hrows row hrow cell hcell
      rcases Reader.bare_or_readsAs hd hskip hfree hsize with ⟨b, rfl, hbare⟩ | hreads
      · simp [hwraps row hrow b hcell] at hbare
      · exact hreads
    have hback := readsBack_writeRows_of_readsAs hd hdialect hbytes hcapacity hcells
    rw [written_of_writeRows_ok hok, List.take_length] at hback
    exact hback.answers

/-- Numbers stand without quotes, and a truth value is quoted for the sake of the delimiter in its
text. -/
theorem nonNumeric_rows_read_back_letter :
    let d : Dialect := { quoting := .nonNumeric, delimiter := 'e' }
    let w : Writer := { dialect := d }
    let rows : List Row := [[.int (-20), .text "x", .float ⟨0x7ff8000000000000⟩, .absent],
      [.bool true, .text " 3", .float ⟨0x3ff8000000000000⟩]]
    (w.writeRows rows).result = .ok () ∧
      ∃ r, Reader.open? (ofBytes (w.writeRows rows).after.sink.bytes) d 9 = .ok r ∧
        ∀ k, r.answer k = [["-20", "x", "nan", ""], ["True", " 3", "1.5"]][k]?.map .ok := by
  intro d w rows
  have hw : open? {} d = .ok w := rfl
  have hterm : ∃ n, d.terminator.toList = List.replicate n '\r' ++ ['\n'] := ⟨1, by decide⟩
  have hok : (w.writeRows rows).result = .ok () := by
    apply writeRows_ok rfl
    intro row _
    exact exists_formatRow (by decide) (.inl rfl) row
  have hrows : ∀ row ∈ rows, ∀ cell ∈ row,
      '\x00' ∉ cell.render.toList ∧ cell.render.length ≤ 9 := by decide +kernel
  have htexts : rows.map (List.map Cell.render) =
      [["-20", "x", "nan", ""], ["True", " 3", "1.5"]] := by decide +kernel
  have hwraps : ∀ b, wraps d (.bool b) = true := by decide
  obtain ⟨r, hr, hiff⟩ := nonNumeric_rows_read_back_iff hw rfl rfl rfl rfl hterm (by decide)
    (by decide) rows 9 hrows hok
  rw [htexts] at hiff
  exact ⟨hok, r, hr, hiff.mpr fun _ _ b _ => hwraps b⟩

/-- The text of a truth value is written as a number is, and then refused. -/
theorem truth_value_not_read_back :
    let d : Dialect := { quoting := .nonNumeric }
    let w : Writer := { dialect := d }
    let out := (w.writeRows [[.bool true]]).after.sink.bytes
    open? {} d = .ok w ∧ d.BreakFree ∧ (w.writeRows [[.bool true]]).result = .ok () ∧
      Reader.open? (ofBytes out) d 9 = .ok (Reader.fresh (ofBytes out) d 9) ∧
      (Reader.fresh (ofBytes out) d 9).answer 0 = some (.error (.notNumeric "True")) := by
  intro d w out
  have hline : [[Cell.bool true]].map (formatRow w.dialect) = ["True\r\n"].map .ok := by
    subst w d
    rfl
  obtain ⟨hok, hout⟩ := ofBytes_writeRows rfl rfl hline
  refine ⟨rfl, by decide, hok, rfl, ?_⟩
  unfold out
  rw [hout]
  subst out w d
  rfl

end Writer

end Tabular
