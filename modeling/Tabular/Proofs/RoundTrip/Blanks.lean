import Tabular.Proofs.RoundTrip

/-! # Reading with blanks skipped

A reader may skip the blanks in front of a field, while a writer does not take them into account. So
a text that was written without quotes comes back without the blanks at its start, and every other
text comes back as it is.
-/
namespace Tabular

open Lines

namespace Text

theorem dropWhile_isBlank_dropWhile (cs : List Char) :
    (cs.dropWhile (· == ' ')).dropWhile isBlank = cs.dropWhile isBlank := by
  induction cs with
  | nil => rfl
  | cons c cs ih =>
    by_cases hc : c = ' '
    · subst c
      have hblank : isBlank ' ' = true := by decide
      rw [List.dropWhile_cons_of_pos (by rfl), List.dropWhile_cons_of_pos hblank, ih]
    · rw [List.dropWhile_cons_of_neg (by simpa using hc)]

theorem isNumber_dropWhile (cs : List Char) :
    Decimal.isNumber (String.ofList (cs.dropWhile (· == ' '))) =
      Decimal.isNumber (String.ofList cs) := by
  simp only [Decimal.isNumber, String.toList_ofList, trim, dropWhile_isBlank_dropWhile]

end Text

def Cell.skipped (d : Dialect) (cell : Cell) : String :=
  if Writer.wraps d cell then cell.render
  else String.ofList (cell.render.toList.dropWhile (· == ' '))

namespace Reader.Machine

open Writer

variable {d : Dialect} {limit : Nat} {done : Array String}

theorem step_blank (hskip : d.skipInitialSpace = true) (hblank : Plain d ' ') :
    step d limit (.of .startField done #[] false) (some ' ') =
      .ok (.of .startField done #[] false) := by
  apply step_of_move
  simp [Action.ofChar, Action.ofFieldStart, hblank.not_break, hblank.not_quote, hblank.not_escape,
    hskip]

theorem reads_skipping (hd : d.Faithful) (hskip : d.skipInitialSpace = true)
    (hblank : isSpecial d ' ' = false) {text : List Char} (htext : ∀ c ∈ text, Unquotable d c)
    (hnul : '\x00' ∉ text) (hescape : Escapable d text) (hsize : text.length ≤ limit) :
    ∃ m, Reads d limit (.of .startField done #[] false) (text.flatMap (encodeChar d)) m ∧
      Unquoted d m done (text.dropWhile (· == ' ')) := by
  induction text with
  | nil => exact ⟨_, .nil, unquoted_startField done⟩
  | cons c text ih =>
    by_cases hc : c = ' '
    · subst c
      obtain ⟨m, hreads, hm⟩ := ih (fun b hb => htext b (List.mem_cons_of_mem _ hb))
        (fun h => hnul (List.mem_cons_of_mem _ h))
        (fun b hb => hescape b (List.mem_cons_of_mem _ hb)) (Nat.le_of_succ_le hsize)
      have hplain := plain_of_isSpecial hblank
      have hform : encodeChar d ' ' = [' '] :=
        encodeChar_of_plain hplain.no_escape hplain.not_quote
      refine ⟨m, ?_, hm⟩
      rw [List.flatMap_cons, hform]
      exact .cons (by decide) (step_blank hskip hplain) (fun h => absurd h (by decide)) hreads
    · -- The first character that is no blank starts the field.
      rw [List.dropWhile_cons_of_neg (by simpa using hc)]
      have hhead : ([] : List Char) = [] → (c :: text).head? = some ' ' →
          d.skipInitialSpace = false := by
        intro _ h
        exact absurd (Option.some.inj h) hc
      exact (unquoted_startField done).reads_text hd htext hnul hescape hhead
        (by simpa using hsize)

theorem readsAs_skipped (hd : d.Faithful) (hskip : d.skipInitialSpace = true)
    (hblank : isSpecial d ' ' = false) {cell : Cell} (hnul : '\x00' ∉ cell.render.toList)
    (hsize : cell.render.toList.length ≤ limit)
    (hnumber : d.quoting = .nonNumeric → cell.isNumeric = true →
      Decimal.isNumber cell.render = true) :
    ReadsAs d limit cell (cell.skipped d).toList := by
  have hdelim : d.delimiter ≠ ' ' := fun h => (plain_of_isSpecial hblank).ne_delimiter h.symm
  intro alone piece h done
  cases encodes_of_encodeCell hd.valid h with
  | @quoted q hq hescape =>
    have htext : (cell.skipped d).toList = cell.render.toList := by
      unfold Cell.skipped
      cases hw : wraps d cell with
      | true => rfl
      | false => simp [eq_nil_of_wrapped hw h]
    rw [htext]
    exact exists_reads_quoted hd hq hnul hescape hsize done
  | unquoted _ hescape hquotes hplain =>
    have htext : (cell.skipped d).toList = cell.render.toList.dropWhile (· == ' ') := by
      simp [Cell.skipped, wraps_eq_false hquotes hplain]
    rw [htext]
    obtain ⟨m, hreads, hm⟩ := reads_skipping hd hskip hblank hplain hnul hescape hsize
    refine ⟨m, hreads, hm.holds ?_, fun _ h => absurd h hdelim⟩
    intro hnumeric
    have hquoted := hquotes (by simp [hnumeric])
    rw [Text.isNumber_dropWhile, String.ofList_toList]
    exact hnumber hnumeric (by simpa [quotesCell, hnumeric] using hquoted)

end Reader.Machine

namespace Writer

theorem skipped_eq_self {d : Dialect} {s : String}
    (h : wraps d (.text s) = true ∨ s.toList.head? ≠ some ' ') :
    (Cell.text s).skipped d = s := by
  unfold Cell.skipped
  cases hw : wraps d (.text s) with
  | true => rfl
  | false =>
    have hhead := h.resolve_left (by simp [hw])
    change String.ofList (s.toList.dropWhile (· == ' ')) = s
    cases hs : s.toList with
    | nil => rw [List.dropWhile_nil, ← hs, String.ofList_toList]
    | cons c text =>
      rw [hs] at hhead
      rw [List.dropWhile_cons_of_neg (by simpa using hhead), ← hs, String.ofList_toList]

theorem map_skipped_cellsOf (d : Dialect) (rows : List (List String)) :
    (cellsOf rows).map (List.map (Cell.skipped d)) =
      rows.map (List.map fun s => (Cell.text s).skipped d) := by
  rw [cellsOf, List.map_map]
  apply List.map_congr_left
  intro row _
  rw [Function.comp_apply, List.map_map]
  rfl

theorem map_skipped_eq_self {d : Dialect} {rows : List (List String)}
    (h : ∀ row ∈ rows, ∀ s ∈ row, wraps d (.text s) = true ∨ s.toList.head? ≠ some ' ') :
    rows.map (List.map fun s => (Cell.text s).skipped d) = rows := by
  have hrow : ∀ row ∈ rows, row.map (fun s => (Cell.text s).skipped d) = id row := by
    intro row hrow
    rw [List.map_congr_left fun s hs => skipped_eq_self (h row hrow s hs)]
    exact List.map_id' row
  rw [List.map_congr_left hrow, List.map_id]

theorem isSpecial_blank {d : Dialect} {n : Nat}
    (hterm : d.terminator.toList = List.replicate n '\r' ++ ['\n']) (hdelim : d.delimiter ≠ ' ')
    (hquote : d.quote ≠ some ' ') (hescape : d.escape ≠ some ' ') : isSpecial d ' ' = false := by
  have hbreak : isBreak ' ' = false := by decide
  simp [isSpecial, hbreak, hterm, hdelim.symm, hquote, hescape]

/-- A writer and a reader that skips blanks agree up to these. From the bytes of a writer that wrote
all rows, the reader has the rows with each text that was not put into quotes short of the blanks at
its start. In particular it has the rows themselves if no such text starts with a blank. -/
theorem written_rows_read_back_skipping {d : Dialect} {sink : Sink} {w : Writer}
    (hw : open? sink d = .ok w) (hempty : sink.bytes = .empty) (hsink : sink.capacity = none)
    (hskip : d.skipInitialSpace = true)
    (hterm : ∃ n, d.terminator.toList = List.replicate n '\r' ++ ['\n']) (hb : d.BreakFree)
    (hnul : d.delimiter ≠ '\x00' ∧ d.quote ≠ some '\x00' ∧ d.escape ≠ some '\x00')
    (hblank : d.delimiter ≠ ' ' ∧ d.quote ≠ some ' ' ∧ d.escape ≠ some ' ')
    (rows : List (List String)) (limit : Nat)
    (hrows : ∀ row ∈ rows, ∀ s ∈ row, '\x00' ∉ s.toList ∧ s.length ≤ limit)
    (hok : (w.writeRows (cellsOf rows)).result = .ok ()) :
    ∃ r, Reader.open? (ofBytes (w.writeRows (cellsOf rows)).after.sink.bytes) d limit = .ok r ∧
      (∀ k, r.answer k =
        (rows.map (List.map fun s => (Cell.text s).skipped d))[k]?.map .ok) ∧
      ((∀ row ∈ rows, ∀ s ∈ row, wraps d (.text s) = true ∨ s.toList.head? ≠ some ' ') →
        ∀ k, r.answer k = rows[k]?.map .ok) := by
  obtain ⟨hvalid, hwriter⟩ := open?_eq_ok.mp hw
  have hdialect : w.dialect = d := by rw [hwriter]
  have hbytes : w.sink.bytes = .empty := by rw [hwriter, hempty]
  have hcapacity : w.sink.capacity = none := by rw [hwriter, hsink]
  have hd : d.Faithful :=
    ⟨Dialect.validate_eq_ok.mp hvalid, hb.separable, hnul.1, hnul.2.1, hnul.2.2, hterm,
      fun _ => .inr hblank.1⟩
  have hspecial : isSpecial d ' ' = false := by
    obtain ⟨n, hn⟩ := hterm
    exact isSpecial_blank hn hblank.1 hblank.2.1 hblank.2.2
  have hcells : ∀ row ∈ cellsOf rows, ∀ cell ∈ row,
      Reader.Machine.ReadsAs d limit cell (cell.skipped d).toList := by
    rw [forall_mem_cellsOf]
    intro row hrow s hs
    obtain ⟨hfree, hlength⟩ := hrows row hrow s hs
    apply Reader.Machine.readsAs_skipped hd hskip hspecial
    · exact hfree
    · exact hlength
    · exact fun _ h => h
  have hback := readsBack_writeRows_of_readsAs hd hdialect hbytes hcapacity hcells
  rw [written_of_writeRows_ok hok, List.take_length, map_skipped_cellsOf] at hback
  refine ⟨_, Reader.open?_eq_ok.mpr ⟨hvalid, rfl⟩, hback.answers, ?_⟩
  intro hplain k
  rw [hback.answers k, map_skipped_eq_self hplain]

theorem written_rows_read_back_skipping_excel :
    let d : Dialect := { skipInitialSpace := true }
    let w : Writer := { dialect := d }
    let rows := [[" a", " b,c", "d "], ["  "], [""], []]
    (w.writeRows (cellsOf rows)).result = .ok () ∧
      ∃ r, Reader.open? (ofBytes (w.writeRows (cellsOf rows)).after.sink.bytes) d 9 = .ok r ∧
        r.answer 0 = some (.ok ["a", " b,c", "d "]) ∧ r.answer 1 = some (.ok [""]) ∧
        r.answer 2 = some (.ok [""]) ∧ r.answer 3 = some (.ok []) ∧ r.answer 4 = none := by
  intro d w rows
  have hw : open? {} d = .ok w := rfl
  have hterm : ∃ n, d.terminator.toList = List.replicate n '\r' ++ ['\n'] := ⟨1, by decide⟩
  have hb : d.BreakFree := by decide
  have hok : (w.writeRows (cellsOf rows)).result = .ok () := by
    apply writeRows_ok rfl
    intro row _
    exact exists_formatRow (by decide) (.inl rfl) row
  obtain ⟨r, hr, hanswer, -⟩ := written_rows_read_back_skipping hw rfl rfl rfl hterm hb (by decide)
    (by decide) rows 9 (by decide) hok
  have hrecords : rows.map (List.map fun s => (Cell.text s).skipped d) =
      [["a", " b,c", "d "], [""], [""], []] := by decide +kernel
  rw [hrecords] at hanswer
  exact ⟨hok, r, hr, hanswer 0, hanswer 1, hanswer 2, hanswer 3, hanswer 4⟩

/-- A blank at the start of a text that needs no quotes is written and then skipped. -/
theorem leading_blank_not_read_back :
    let d : Dialect := { skipInitialSpace := true }
    let w : Writer := { dialect := d }
    let out := (w.writeRows (cellsOf [[" a"]])).after.sink.bytes
    open? {} d = .ok w ∧ d.BreakFree ∧ (w.writeRows (cellsOf [[" a"]])).result = .ok () ∧
      Reader.open? (ofBytes out) d 9 = .ok (Reader.fresh (ofBytes out) d 9) ∧
      (Reader.fresh (ofBytes out) d 9).answer 0 = some (.ok ["a"]) ∧
      (Reader.fresh (ofBytes out) d 9).answer 0 ≠ some (.ok [" a"]) := by
  intro d w out
  have hline : (cellsOf [[" a"]]).map (formatRow w.dialect) = [" a\r\n"].map .ok := by
    subst w d
    rfl
  obtain ⟨hok, hout⟩ := ofBytes_writeRows rfl rfl hline
  have hanswer : (Reader.fresh (ofBytes out) d 9).answer 0 = some (.ok ["a"]) := by
    unfold out
    rw [hout]
    rfl
  refine ⟨rfl, by decide, hok, rfl, hanswer, ?_⟩
  simp [hanswer]

end Writer

end Tabular
