import Tabular.Proofs.Reader.Contents
import Tabular.Proofs.RoundTrip

/-! # Writing what was read

A dialect that quotes, and that can write a quote between quotes, can write every row. So all that a
reader makes of an input, malformed as it may be, can be written again, and that reads as it was
read before.
-/
namespace Tabular.Writer

open Lines

variable {d : Dialect}

theorem readsBack_cellsOf (hd : d.Faithful)
    (hspace : d.skipInitialSpace = false ∨ d.quoting = .all) {w : Writer} (hw : w.dialect = d)
    (hempty : w.sink.bytes = .empty) (hsink : w.sink.capacity = none) {rows : List (List String)}
    {limit : Nat} (hrows : ∀ row ∈ rows, ∀ s ∈ row, Reader.Fits limit s.toList)
    (hok : (w.writeRows (cellsOf rows)).result = .ok ()) :
    (Reader.fresh (ofBytes (w.writeRows (cellsOf rows)).after.sink.bytes) d limit).ReadsBack rows
      ((w.writeRows (cellsOf rows)).after.sink.bytes.data.toList.count lineFeed) := by
  have hcells : ∀ row ∈ cellsOf rows, ∀ cell ∈ row, cell.Readable d limit := by
    rw [forall_mem_cellsOf]
    intro row hrow s hs
    have hfits := hrows row hrow s hs
    refine ⟨hfits.nul, hfits.length, fun _ h => h, ?_⟩
    intro hskip
    exact .inl (hspace.resolve_left (by simp [hskip]))
  have hback := readsBack_writeRows hd hw hempty hsink hcells
  have hlength : (cellsOf rows).length = rows.length := List.length_map _
  rwa [map_render_take_cellsOf, written_of_writeRows_ok hok, hlength, List.take_length] at hback

/-- Reading normalises. The records that a reader has of any source, failures left out, can all be
written again, and what is written reads as these records and nothing else. -/
theorem read_records_read_back {d : Dialect} {source : List Item} {limit : Nat} {r : Reader}
    (hr : Reader.open? source d limit = .ok r) {sink : Sink} {w : Writer}
    (hw : open? sink d = .ok w) (hempty : sink.bytes = .empty) (hsink : sink.capacity = none)
    (hterm : ∃ n, d.terminator.toList = List.replicate n '\r' ++ ['\n']) (hb : d.BreakFree)
    (hnul : d.delimiter ≠ '\x00' ∧ d.quote ≠ some '\x00' ∧ d.escape ≠ some '\x00')
    (hspace : d.skipInitialSpace = false ∨ d.quoting = .all) (hquoting : d.quoting ≠ .none)
    (hquote : d.doubleQuote = true ∨ d.escape ≠ none) :
    (w.writeRows (cellsOf r.records)).result = .ok () ∧
      ∃ r', Reader.open? (ofBytes (w.writeRows (cellsOf r.records)).after.sink.bytes) d limit =
          .ok r' ∧
        ∀ k, r'.answer k = r.records[k]?.map .ok := by
  obtain ⟨hvalid, rfl⟩ := open?_eq_ok.mp hw
  obtain ⟨-, rfl⟩ := Reader.open?_eq_ok.mp hr
  have hd : d.Faithful :=
    ⟨Dialect.validate_eq_ok.mp hvalid, hb.separable, hnul.1, hnul.2.1, hnul.2.2, hterm,
      fun h => .inl (hspace.resolve_left (by simp [h]))⟩
  have hok : (Writer.writeRows { dialect := d, sink := sink }
      (cellsOf (Reader.fresh source d limit).records)).result = .ok () := by
    apply writeRows_ok hsink
    intro row _
    exact exists_formatRow hquoting hquote row
  have hback := readsBack_cellsOf hd hspace rfl hempty hsink
    (fun record h => Reader.fits_of_mem_records hnul.2.2 h) hok
  exact ⟨hok, _, Reader.open?_eq_ok.mpr ⟨hvalid, rfl⟩, hback.answers⟩

/-- Text behind a closing quote, a break in the middle of a line, and an escape at the end. -/
theorem read_records_read_back_malformed :
    let d : Dialect := { doubleQuote := false, escape := some '\\' }
    let w : Writer := { dialect := d }
    let r := Reader.fresh [.ok "\"a\"b,\r\n", .ok "x\ry\n", .ok "p\\"] d 9
    r.records = [["ab", ""], ["p\\"]] ∧ (w.writeRows (cellsOf r.records)).result = .ok () ∧
      ∃ r', Reader.open? (ofBytes (w.writeRows (cellsOf r.records)).after.sink.bytes) d 9 = .ok r' ∧
        ∀ k, r'.answer k = [["ab", ""], ["p\\"]][k]?.map .ok := by
  intro d w r
  have hterm : ∃ n, d.terminator.toList = List.replicate n '\r' ++ ['\n'] := ⟨1, by decide⟩
  have hb : d.BreakFree := by decide
  have hrecords : r.records = [["ab", ""], ["p\\"]] := by
    rw [@Reader.records_of_some r _ (.ok ["ab", ""]) rfl,
      @Reader.records_of_some _ _ (.error .newlineInUnquoted) rfl,
      @Reader.records_of_some _ _ (.ok ["p\\"]) rfl, Reader.records_of_none rfl]
    rfl
  obtain ⟨hok, r', hr', hanswer⟩ := read_records_read_back (r := r) (w := w) rfl rfl rfl rfl hterm
    hb (by decide) (.inl rfl) (by decide) (.inr (by decide))
  rw [hrecords] at hok hr' hanswer ⊢
  exact ⟨rfl, hok, r', hr', hanswer⟩

end Tabular.Writer
