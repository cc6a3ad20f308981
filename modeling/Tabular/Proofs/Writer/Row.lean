import Tabular.Proofs.Dialect
import Tabular.Proofs.Failure
import Tabular.Writer.Row

/-! # The written forms of a cell

A cell is written between quotes or as it stands. In both forms each character of its text is
written by itself, so that what can be said of a character can be said of the text.
-/
namespace Tabular.Writer

variable {d : Dialect} {text body piece : List Char}

def Escapable (d : Dialect) (text : List Char) : Prop :=
  ∀ c ∈ text, needsEscape d c = true → ∃ e, d.escape = some e

theorem encodeText_eq_ok :
    encodeText d text = .ok body ↔ Escapable d text ∧ body = text.flatMap (encodeChar d) := by
  have hany : (d.escape.isNone && text.any (needsEscape d)) = true ↔ ¬ Escapable d text := by
    cases he : d.escape with
    | none => simp [Escapable, he]
    | some e => simp [Escapable, he]
  unfold encodeText
  by_cases h : Escapable d text
  · rw [if_neg (mt hany.mp (not_not_intro h))]
    simp only [Except.ok.injEq, h, true_and]
    exact eq_comm
  · rw [if_pos (hany.mpr h)]
    simp [h]

theorem encodeChar_of_needsEscape {c e : Char} (h : needsEscape d c = true)
    (he : d.escape = some e) : encodeChar d c = [e, c] := by
  simp [encodeChar, h, he]

theorem encodeChar_of_quote {c : Char} (h : needsEscape d c = false) (hq : d.isQuote c = true) :
    encodeChar d c = [c, c] := by
  simp [encodeChar, h, hq]

theorem encodeChar_of_plain {c : Char} (h : needsEscape d c = false) (hq : d.isQuote c = false) :
    encodeChar d c = [c] := by
  simp [encodeChar, h, hq]

structure Plain (d : Dialect) (c : Char) : Prop where
  not_break : isBreak c = false
  ne_delimiter : c ≠ d.delimiter
  not_escape : d.isEscape c = false
  not_quote : d.isQuote c = false
  no_escape : needsEscape d c = false

theorem plain_of_isSpecial {c : Char} (h : isSpecial d c = false) : Plain d c := by
  have hspecial := h
  simp only [isSpecial, Bool.or_eq_false_iff, beq_eq_false_iff_ne] at h
  obtain ⟨⟨⟨⟨hbreak, hdelim⟩, hescape⟩, hquote⟩, -⟩ := h
  refine ⟨hbreak, hdelim, by simpa [Dialect.isEscape] using hescape, ?_, ?_⟩
  · simp [Dialect.isQuote, hquote]
  · by_cases hn : d.quoting = .none
    · simpa [needsEscape, hn] using hspecial
    · simpa [needsEscape, hn, hquote] using hescape

/-- What is written without quotes: anything if quotes have no meaning, or else plain characters. -/
def Unquotable (d : Dialect) (c : Char) : Prop := d.quoting = .none ∨ isSpecial d c = false

theorem Unquotable.plain {c : Char} (h : Unquotable d c) (hn : needsEscape d c = false) :
    Plain d c := by
  rcases h with h | h
  · exact plain_of_isSpecial (by simpa [needsEscape, h] using hn)
  · exact plain_of_isSpecial h

theorem Unquotable.quoting_eq_none {c : Char} (h : Unquotable d c) (hn : needsEscape d c = true) :
    d.quoting = .none := by
  rcases h with h | h
  · exact h
  · simp [(plain_of_isSpecial h).no_escape] at hn

def bodyOf (d : Dialect) (cell : Cell) : List Char := cell.render.toList.flatMap (encodeChar d)

inductive Encodes (d : Dialect) (alone : Bool) (cell : Cell) : List Char → Prop where
  | quoted {q : Char} : d.isQuote q = true → Escapable d cell.render.toList →
      Encodes d alone cell (q :: (bodyOf d cell ++ [q]))
  | unquoted : (alone = true → cell.render.toList ≠ []) → Escapable d cell.render.toList →
      (d.quoting ≠ .none → quotesCell d cell = false) →
      (∀ c ∈ cell.render.toList, Unquotable d c) → Encodes d alone cell (bodyOf d cell)

theorem encodes_of_encodeCell (hd : d.Valid) {alone : Bool} {cell : Cell}
    (h : encodeCell d alone cell = .ok piece) : Encodes d alone cell piece := by
  simp only [encodeCell, encodeField] at h
  cases hbody : encodeText d cell.render.toList with
  | error cause => simp [hbody] at h
  | ok body =>
    obtain ⟨hescape, rfl⟩ := encodeText_eq_ok.mp hbody
    rw [hbody] at h
    dsimp only at h
    by_cases hn : d.quoting = .none
    · rw [if_pos hn] at h
      split at h
      · cases h
      · rename_i hbare
        cases h
        refine .unquoted ?_ hescape (fun h => absurd hn h) fun c _ => .inl hn
        intro halone he
        simp [halone, he] at hbare
    · rw [if_neg hn] at h
      split at h
      · cases h
        obtain ⟨q, hq⟩ := hd.quote_set hn
        have hform : wrap d (cell.render.toList.flatMap (encodeChar d)) =
            q :: (bodyOf d cell ++ [q]) := by
          simp [wrap, hq, bodyOf]
        rw [hform]
        exact .quoted (Dialect.isQuote_iff.mpr ⟨hn, hq⟩) hescape
      · rename_i hplain
        cases h
        simp only [Bool.or_eq_true, Bool.and_eq_true, List.any_eq_true, not_or, not_exists, not_and,
          Bool.not_eq_true] at hplain
        refine .unquoted ?_ hescape (fun _ => hplain.1.1) fun c hc => .inr (hplain.1.2 c hc)
        intro halone he
        simp [halone, he] at hplain

def wraps (d : Dialect) (cell : Cell) : Bool :=
  d.quoting != .none && (quotesCell d cell || cell.render.toList.any (isSpecial d))

theorem eq_nil_of_wrapped {alone : Bool} {cell : Cell} {q : Char} (hw : wraps d cell = false)
    (h : encodeCell d alone cell = .ok (q :: (bodyOf d cell ++ [q]))) :
    cell.render.toList = [] := by
  have hlength : bodyOf d cell ≠ q :: (bodyOf d cell ++ [q]) := by
    intro he
    have := congrArg List.length he
    simp only [List.length_cons, List.length_append, List.length_nil] at this
    omega
  simp only [encodeCell, encodeField] at h
  cases hbody : encodeText d cell.render.toList with
  | error cause => simp [hbody] at h
  | ok body =>
    obtain ⟨-, rfl⟩ := encodeText_eq_ok.mp hbody
    rw [hbody] at h
    dsimp only at h
    by_cases hn : d.quoting = .none
    · rw [if_pos hn] at h
      split at h
      · cases h
      · exact absurd (Except.ok.inj h) hlength
    · have hplain : (quotesCell d cell || cell.render.toList.any (isSpecial d)) = false := by
        simpa [wraps, hn] using hw
      rw [if_neg hn, hplain, Bool.false_or] at h
      split at h
      · rename_i hbare
        simpa using (Bool.and_eq_true_iff.mp hbare).2
      · exact absurd (Except.ok.inj h) hlength

theorem wraps_eq_false {cell : Cell} (hquotes : d.quoting ≠ .none → quotesCell d cell = false)
    (hplain : ∀ c ∈ cell.render.toList, Unquotable d c) : wraps d cell = false := by
  by_cases hn : d.quoting = .none
  · simp [wraps, hn]
  · have hspecial : cell.render.toList.any (isSpecial d) = false := by
      rw [List.any_eq_false]
      intro c hc
      rw [Bool.not_eq_true]
      exact (hplain c hc).resolve_left hn
    simp [wraps, hquotes hn, hspecial]

theorem formatRow_eq_ok {row : Row} {line : String} :
    formatRow d row = .ok line ↔
      ∃ pieces, row.mapM (encodeCell d (row.length == 1)) = .ok pieces ∧
        line = String.ofList ([d.delimiter].intercalate pieces) ++ d.terminator := by
  unfold formatRow
  cases row.mapM (encodeCell d (row.length == 1)) with
  | error cause => simp
  | ok pieces =>
    simp only [Except.ok.injEq, exists_eq_left']
    exact eq_comm

theorem escapable_of_quoting (hquoting : d.quoting ≠ .none)
    (hquote : d.doubleQuote = true ∨ d.escape ≠ none) (text : List Char) : Escapable d text := by
  intro c _ hneeds
  rw [← Option.ne_none_iff_exists']
  by_cases hc : d.quote = some c
  · have hdouble : d.doubleQuote = false := by
      simpa [needsEscape, hquoting, hc] using hneeds
    exact hquote.resolve_left (by simp [hdouble])
  · have hescape : d.escape = some c := by
      simpa [needsEscape, hquoting, hc] using hneeds
    simp [hescape]

theorem exists_encodeCell (hquoting : d.quoting ≠ .none)
    (hquote : d.doubleQuote = true ∨ d.escape ≠ none) (alone : Bool) (cell : Cell) :
    ∃ piece, encodeCell d alone cell = .ok piece := by
  have hbody := encodeText_eq_ok.mpr
    ⟨escapable_of_quoting hquoting hquote cell.render.toList, rfl⟩
  simp only [encodeCell, encodeField, hbody, if_neg hquoting]
  split
  · exact ⟨_, rfl⟩
  · exact ⟨_, rfl⟩

theorem exists_formatRow (hquoting : d.quoting ≠ .none)
    (hquote : d.doubleQuote = true ∨ d.escape ≠ none) (row : Row) :
    ∃ line, formatRow d row = .ok line := by
  have hpieces : ∀ (alone : Bool) (cells : Row),
      ∃ pieces, cells.mapM (encodeCell d alone) = .ok pieces := by
    intro alone cells
    induction cells with
    | nil => exact ⟨[], rfl⟩
    | cons cell cells ih =>
      obtain ⟨piece, hpiece⟩ := exists_encodeCell hquoting hquote alone cell
      obtain ⟨pieces, hothers⟩ := ih
      exact ⟨piece :: pieces, mapM_cons_eq_ok.mpr ⟨piece, pieces, hpiece, hothers, rfl⟩⟩
  obtain ⟨pieces, h⟩ := hpieces (row.length == 1) row
  exact ⟨_, formatRow_eq_ok.mpr ⟨pieces, h, rfl⟩⟩

end Tabular.Writer
