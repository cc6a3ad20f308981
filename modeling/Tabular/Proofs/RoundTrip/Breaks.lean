import Tabular.Proofs.RoundTrip

/-! # Quotes and escapes that break lines

A dialect may have a carriage return or a line feed for its quote or its escape. What is written
then starts a line with a break, which reads as an empty record, or is cut in the middle of an
escaped character. Only where that cannot happen does everything read back.
-/
namespace Tabular

open Lines

namespace Reader

variable {d : Dialect} {limit : Nat}

namespace Machine

theorem eq_of_feed_afterBreak {m n : Machine} (hm : m.state = .afterBreak) {text : List Char}
    (h : m.feed d limit text = .ok n) : n = m.goto .startRecord := by
  induction text with
  | nil =>
    rw [feed_nil, step_end_afterBreak hm] at h
    exact (Except.ok.inj h).symm
  | cons c text ih =>
    by_cases hnul : c = '\x00'
    · subst hnul
      cases h
    by_cases hc : isBreak c = true
    · rw [feed_cons_of_step hnul (step_afterBreak hm hc)] at h
      exact ih h
    · have hstep : m.step d limit (some c) = .error .newlineInUnquoted := by
        rw [step_some, hm]
        simp [Action.ofChar, hc, Action.perform]
      rw [feed_cons m hnul, hstep] at h
      cases h

theorem feed_escape_lineFeed (he : d.isEscape '\n' = true) {m : Machine}
    (hm : m.state = .inQuoted) :
    m.feed d limit ['\n'] = .ok (m.goto .escapedInQuoted) := by
  have hstep : m.step d limit (some '\n') = .ok (m.goto .escapedInQuoted) :=
    step_of_move (by simp [hm, Action.ofChar, he])
  rw [feed_cons_of_step (by decide) hstep, feed_nil, step_none]
  rfl

end Machine

theorem answer_ne_of_break {c : Char} (hc : isBreak c = true) (text : List Char) {record : Record}
    (hrecord : record ≠ []) :
    (fresh (itemsOf (c :: text)) d limit).answer 0 ≠ some (.ok record) := by
  obtain ⟨line, lines, hsplit⟩ := exists_splitText_cons c text
  have hstep : Machine.step d limit .empty (some c) = .ok (Machine.goto .empty .afterBreak) :=
    Machine.step_of_move (by simp [Action.ofChar, hc])
  have hpull : (Cursor.fresh (itemsOf (c :: text)) d limit).answer 0 =
      ((Cursor.fresh (itemsOf (c :: text)) d limit).afterLine 0
        (lines.map fun l => .ok (String.ofList l))
        (Machine.feed d limit .empty (c :: line))).result :=
    congrArg Cursor.Pull.result (Cursor.pull_append_of_reads .nil hsplit 0)
  rw [answer_eq, toCursor_fresh, hpull,
    Machine.feed_cons_of_step (Machine.ne_nul_of_isBreak hc) hstep]
  cases hfeed : Machine.feed d limit (Machine.goto .empty .afterBreak) line with
  | error cause => simp [Cursor.afterLine]
  | ok n =>
    obtain rfl := Machine.eq_of_feed_afterBreak rfl hfeed
    simpa [Cursor.afterLine, Machine.goto] using hrecord.symm

/-- Where a line feed is the escape, an escaped one between quotes is read as two. -/
theorem answer_of_escaped_lineFeed (he : d.escape = some '\n') {q : Char} (hq : d.isQuote q = true)
    (hbreak : isBreak q = false) (hnul : q ≠ '\x00') (text : List Char) :
    (fresh (itemsOf (q :: '\n' :: '\n' :: q :: text)) d 1).answer 0 =
      some (.error (.fieldLimit 1)) := by
  have hescape : d.isEscape '\n' = true := Dialect.isEscape_iff.mpr he
  have hne : q ≠ '\n' := ne_lineFeed_of_isBreak hbreak
  obtain ⟨line, lines, hsplit⟩ := exists_splitText_cons q text
  have hlines : itemsOf (q :: '\n' :: '\n' :: q :: text) =
      .ok (String.ofList [q, '\n']) :: .ok (String.ofList ['\n']) ::
        .ok (String.ofList (q :: line)) :: lines.map fun l => .ok (String.ofList l) := by
    have htail : splitText ('\n' :: '\n' :: q :: text) =
        ['\n'] :: ['\n'] :: (q :: line) :: lines := by
      simp [hsplit]
    rw [itemsOf, splitText_cons_of_ne hne htail]
    rfl
  have hopen : Machine.step d 1 .empty (some q) = .ok (Machine.goto .empty .inQuoted) :=
    Machine.step_of_move (by simp [Action.ofChar, Action.ofFieldStart, hbreak, hq])
  have hfirst : Machine.readLine d 1 .empty (String.ofList [q, '\n']) =
      .ok (Machine.goto .empty .escapedInQuoted) := by
    rw [Machine.readLine_eq_feed rfl, String.toList_ofList, Machine.feed_cons_of_step hnul hopen]
    exact Machine.feed_escape_lineFeed hescape rfl
  have hsecond :
      Machine.readLine d 1 (Machine.goto .empty .escapedInQuoted) (String.ofList ['\n']) =
      .ok (.of .escapedInQuoted #[] #['\n'] false) := by
    have hresume : Machine.resume 1 (Machine.goto .empty .escapedInQuoted) =
        .ok (.of .inQuoted #[] #['\n'] false) := rfl
    rw [Machine.readLine_eq_bind, hresume, String.toList_ofList]
    exact Machine.feed_escape_lineFeed hescape rfl
  -- The third line starts with the second of the two line feeds, for which there is no room.
  rw [answer_eq, toCursor_fresh]
  simp only [Cursor.answer, Cursor.advance, Cursor.next, Cursor.fresh, hlines, Cursor.pull, hfirst,
    hsecond]
  rfl

end Reader

namespace Writer

variable {d : Dialect}

theorem formatRow_singleton {cell : Cell} {piece : List Char}
    (h : encodeCell d true cell = .ok piece) :
    formatRow d [cell] = .ok (String.ofList piece ++ d.terminator) := by
  have hpieces : [cell].mapM (encodeCell d ([cell].length == 1)) = .ok [piece] :=
    mapM_cons_eq_ok.mpr ⟨piece, [], h, rfl, rfl⟩
  rw [formatRow_eq_ok]
  exact ⟨[piece], hpieces, by rw [List.intercalate_singleton]⟩

theorem encodeCell_empty {q : Char} (hq : d.isQuote q = true) :
    encodeCell d true (.text "") = .ok [q, q] := by
  obtain ⟨hquoting, hquote⟩ := Dialect.isQuote_iff.mp hq
  simp [encodeCell, encodeField, encodeText, Cell.render, hquoting, wrap, hquote]

theorem encodeCell_delimiter (hn : d.quoting = .none) {e : Char} (he : d.escape = some e) :
    encodeCell d true (.text (String.ofList [d.delimiter])) = .ok [e, d.delimiter] := by
  have hneeds : needsEscape d d.delimiter = true := by simp [needsEscape, hn, isSpecial]
  simp [encodeCell, encodeField, encodeText, Cell.render, hn, he,
    encodeChar_of_needsEscape hneeds he]

theorem encodeCell_lineFeed (hd : d.Valid) (he : d.escape = some '\n') {q : Char}
    (hq : d.isQuote q = true) : encodeCell d true (.text "\n") = .ok [q, '\n', '\n', q] := by
  obtain ⟨hquoting, hquote⟩ := Dialect.isQuote_iff.mp hq
  have hneeds : needsEscape d '\n' = true := by
    simp [needsEscape, hquoting, hd.escape_ne_quote '\n' he, he]
  simp [encodeCell, encodeField, encodeText, Cell.render, hquoting, he, wrap, hquote, isSpecial,
    isBreak, encodeChar_of_needsEscape hneeds he]

/-- Whatever rows of texts the writer writes, a reader of its dialect has exactly these. -/
def GivesAllBack (w : Writer) : Prop :=
  ∀ rows limit, (∀ row ∈ rows, ∀ s ∈ row, '\x00' ∉ s.toList ∧ s.length ≤ limit) →
    (w.writeRows (cellsOf rows)).result = .ok () →
    ∃ r, Reader.open? (ofBytes (w.writeRows (cellsOf rows)).after.sink.bytes) w.dialect limit =
        .ok r ∧
      ∀ k, r.answer k = rows[k]?.map .ok

theorem GivesAllBack.answer {w : Writer} (h : w.GivesAllBack) (hempty : w.sink.bytes = .empty)
    (hsink : w.sink.capacity = none) {s : String} (limit : Nat)
    (hs : '\x00' ∉ s.toList ∧ s.length ≤ limit) {piece : List Char}
    (hpiece : encodeCell w.dialect true (.text s) = .ok piece) :
    (Reader.fresh (itemsOf (piece ++ w.dialect.terminator.toList)) w.dialect limit).answer 0 =
      some (.ok [s]) := by
  have hlines : (cellsOf [[s]]).map (formatRow w.dialect) =
      [String.ofList piece ++ w.dialect.terminator].map .ok := by
    simp [cellsOf, formatRow_singleton hpiece]
  obtain ⟨hok, hout⟩ := ofBytes_writeRows hempty hsink hlines
  obtain ⟨r, hr, hanswers⟩ := h [[s]] limit (by simpa using hs) hok
  obtain ⟨-, rfl⟩ := Reader.open?_eq_ok.mp hr
  rw [hout] at hanswers
  simpa using hanswers 0

theorem GivesAllBack.quote_not_break {w : Writer} (h : w.GivesAllBack)
    (hempty : w.sink.bytes = .empty) (hsink : w.sink.capacity = none) {q : Char}
    (hq : w.dialect.isQuote q = true) : isBreak q = false := by
  rw [Bool.eq_false_iff]
  intro hbreak
  have hanswer := h.answer hempty hsink 0 (by decide) (encodeCell_empty hq)
  exact Reader.answer_ne_of_break hbreak _ (List.cons_ne_nil _ _) hanswer

theorem GivesAllBack.bareEscape_not_break {w : Writer} (h : w.GivesAllBack)
    (hempty : w.sink.bytes = .empty) (hsink : w.sink.capacity = none)
    (hnul : w.dialect.delimiter ≠ '\x00') (hn : w.dialect.quoting = .none) {e : Char}
    (he : w.dialect.escape = some e) : isBreak e = false := by
  rw [Bool.eq_false_iff]
  intro hbreak
  have hanswer := h.answer hempty hsink 1 (by simpa using hnul.symm)
    (encodeCell_delimiter hn he)
  exact Reader.answer_ne_of_break hbreak _ (List.cons_ne_nil _ _) hanswer

theorem GivesAllBack.separable {w : Writer} (h : w.GivesAllBack) (hd : w.dialect.Valid)
    (hempty : w.sink.bytes = .empty) (hsink : w.sink.capacity = none)
    (hdelimiter : w.dialect.delimiter ≠ '\x00') (hquote : w.dialect.quote ≠ some '\x00') :
    w.dialect.Separable := by
  refine ⟨?_, ?_, ?_⟩
  · intro hquoting q hq
    exact h.quote_not_break hempty hsink (Dialect.isQuote_iff.mpr ⟨hquoting, hq⟩)
  · intro he
    by_cases hn : w.dialect.quoting = .none
    · cases h.bareEscape_not_break hempty hsink hdelimiter hn he
    · obtain ⟨q, hset⟩ := hd.quote_set hn
      have hq : w.dialect.isQuote q = true := Dialect.isQuote_iff.mpr ⟨hn, hset⟩
      have hnul : q ≠ '\x00' := by
        rintro rfl
        exact hquote hset
      have hanswer := h.answer hempty hsink 1 (by decide) (encodeCell_lineFeed hd he hq)
      have hbreak := h.quote_not_break hempty hsink hq
      have hcut := Reader.answer_of_escaped_lineFeed he hq hbreak hnul w.dialect.terminator.toList
      cases hcut.symm.trans hanswer
  · intro hn he
    cases h.bareEscape_not_break hempty hsink hdelimiter hn he

/-- Which dialects tell their special characters apart. Of those without faults, which skip no
blanks and end their lines with a line feed, exactly the separable ones give back all that is
written. -/
theorem written_rows_read_back_iff {d : Dialect} {sink : Sink} {w : Writer}
    (hw : open? sink d = .ok w) (hempty : sink.bytes = .empty) (hsink : sink.capacity = none)
    (hterm : ∃ n, d.terminator.toList = List.replicate n '\r' ++ ['\n'])
    (hskip : d.skipInitialSpace = false)
    (hnul : d.delimiter ≠ '\x00' ∧ d.quote ≠ some '\x00' ∧ d.escape ≠ some '\x00') :
    w.GivesAllBack ↔ d.Separable := by
  obtain ⟨hvalid, rfl⟩ := open?_eq_ok.mp hw
  have hd : d.Valid := Dialect.validate_eq_ok.mp hvalid
  constructor
  · intro h
    exact h.separable hd hempty hsink hnul.1 hnul.2.1
  · intro hb rows limit hrows hok
    have hfaithful : d.Faithful :=
      ⟨hd, hb, hnul.1, hnul.2.1, hnul.2.2, hterm, fun h => by simp [hskip] at h⟩
    have hback := answers_of_writeRows_ok hfaithful (.inl hskip) rfl hempty hrows hok
    exact ⟨_, Reader.open?_eq_ok.mpr ⟨hvalid, rfl⟩, hback⟩

/-- A carriage return may be the escape between quotes, but not the quote. -/
theorem written_rows_read_back_iff_return :
    let d : Dialect := { escape := some '\r', doubleQuote := false }
    let d' : Dialect := { quote := some '\r' }
    (Writer.GivesAllBack { dialect := d } ∧ ¬ d.BreakFree) ∧
      ¬ Writer.GivesAllBack { dialect := d' } ∧ d'.validate = .ok () := by
  intro d d'
  have hterm : ∃ n, d.terminator.toList = List.replicate n '\r' ++ ['\n'] := ⟨1, by decide⟩
  have hw : open? {} d = .ok { dialect := d } := rfl
  have hw' : open? {} d' = .ok { dialect := d' } := rfl
  have hiff := written_rows_read_back_iff hw rfl rfl hterm rfl (by decide)
  have hiff' := written_rows_read_back_iff hw' rfl rfl hterm rfl (by decide)
  refine ⟨⟨hiff.mpr ⟨?_, by decide, by decide⟩, by decide⟩, ?_, rfl⟩
  · intro _ q hq
    cases hq
    rfl
  · intro h
    cases (hiff'.mp h).quote (by decide) '\r' rfl

/-- No fault is found in a dialect that quotes with line feeds, but its two quotes around an empty
text end a record each. -/
theorem lineFeed_quote_not_read_back :
    let d : Dialect := { quote := some '\n' }
    let w : Writer := { dialect := d }
    open? {} d = .ok w ∧ (w.writeRows (cellsOf [[""]])).result = .ok () ∧
      ∃ r, Reader.open? (ofBytes (w.writeRows (cellsOf [[""]])).after.sink.bytes) d 0 = .ok r ∧
        r.answer 0 = some (.ok []) :=
  ⟨rfl, rfl, _, rfl, rfl⟩

end Writer

end Tabular
