import Tabular.Proofs.Writer

/-! # Rows that cannot be written

A row is refused for a character that an escape is needed for and none is set, or for being a single
empty cell where quotes have no meaning. Every other row is written so that nothing is lost: the
text of a cell comes back from its piece of the line once the quotes around it are taken off and
each pair that stands for a character is replaced by that character.
-/
namespace Tabular.Writer

variable {d : Dialect} {text piece : List Char}

def Unwritable (d : Dialect) (c : Char) : Prop :=
  d.quoting = .none ∧
      (c = '\r' ∨ c = '\n' ∨ c = d.delimiter ∨ d.quote = some c ∨ c ∈ d.terminator.toList) ∨
    d.quoting ≠ .none ∧ d.doubleQuote = false ∧ d.quote = some c

/-- A cell of the row has a character that only an escape could make part of it; there is none. -/
def LacksEscape (d : Dialect) (row : Row) : Prop :=
  d.escape = none ∧ ∃ cell ∈ row, ∃ c ∈ cell.render.toList, Unwritable d c

def LoneEmpty (d : Dialect) (row : Row) : Prop :=
  d.quoting = .none ∧ row.map Cell.render = [""]

instance (d : Dialect) (c : Char) : Decidable (Unwritable d c) :=
  inferInstanceAs (Decidable (_ ∨ _))

instance (d : Dialect) (row : Row) : Decidable (LacksEscape d row) :=
  decidable_of_iff
    (d.escape = none ∧ row.any (fun cell => cell.render.toList.any (Unwritable d ·)) = true)
    (by simp [LacksEscape])

instance (d : Dialect) (row : Row) : Decidable (LoneEmpty d row) :=
  inferInstanceAs (Decidable (_ ∧ _))

theorem needsEscape_iff_unwritable {c : Char} (he : d.escape = none) :
    needsEscape d c = true ↔ Unwritable d c := by
  by_cases hn : d.quoting = .none
  · simp [needsEscape, isSpecial, isBreak, Unwritable, hn, he, or_assoc]
  · by_cases hq : d.quote = some c
    · simp [needsEscape, Unwritable, hn, hq]
    · simp [needsEscape, Unwritable, hn, hq, he]

theorem not_escapable_iff :
    ¬ Escapable d text ↔ d.escape = none ∧ ∃ c ∈ text, Unwritable d c := by
  cases he : d.escape with
  | none => simp [Escapable, he, needsEscape_iff_unwritable he]
  | some e => simp [Escapable, he]

theorem not_escapable_of_error {cause : Failure} (h : encodeText d text = .error cause) :
    cause = .escapeRequired ∧ ¬ Escapable d text := by
  constructor
  · unfold encodeText at h
    split at h <;> cases h
    rfl
  · intro hescape
    cases h.symm.trans (encodeText_eq_ok.mpr ⟨hescape, rfl⟩)

theorem encodeCell_error_cases {alone : Bool} {cell : Cell} {cause : Failure}
    (h : encodeCell d alone cell = .error cause) :
    cause = .escapeRequired ∧ ¬ Escapable d cell.render.toList ∨
      cause = .emptyFieldUnquoted ∧ d.quoting = .none ∧ alone = true ∧ cell.render = "" := by
  simp only [encodeCell, encodeField] at h
  split at h
  · rename_i cause' htext
    cases h
    exact .inl (not_escapable_of_error htext)
  · repeat' split at h
    all_goals cases h
    rename_i hn hbare
    obtain ⟨halone, hempty⟩ := Bool.and_eq_true_iff.mp hbare
    exact .inr ⟨rfl, hn, halone, by simpa using hempty⟩

theorem escapable_of_encodeCell (hd : d.Valid) {alone : Bool} {cell : Cell}
    (h : encodeCell d alone cell = .ok piece) : Escapable d cell.render.toList := by
  cases encodes_of_encodeCell hd h with
  | quoted _ hescape => exact hescape
  | unquoted _ hescape _ _ => exact hescape

theorem formatRow_error_cases {row : Row} {cause : Failure}
    (h : formatRow d row = .error cause) :
    cause = .escapeRequired ∧ LacksEscape d row ∨
      cause = .emptyFieldUnquoted ∧ LoneEmpty d row := by
  unfold formatRow at h
  split at h
  · rename_i cause' hpieces
    cases h
    obtain ⟨cell, hcell, hcause⟩ := exists_of_mapM_error hpieces
    rcases encodeCell_error_cases hcause with ⟨rfl, hno⟩ | ⟨rfl, hn, halone, hempty⟩
    · obtain ⟨he, c, hc, hbad⟩ := not_escapable_iff.mp hno
      exact .inl ⟨rfl, he, cell, hcell, c, hc, hbad⟩
    · obtain ⟨only, rfl⟩ := List.length_eq_one_iff.mp (beq_iff_eq.mp halone)
      obtain rfl := List.mem_singleton.mp hcell
      exact .inr ⟨rfl, hn, by rw [List.map_singleton, hempty]⟩
  · cases h

theorem not_loneEmpty_of_lacksEscape {row : Row} (h : LacksEscape d row) : ¬ LoneEmpty d row := by
  rintro ⟨-, hrow⟩
  obtain ⟨-, cell, hcell, c, hc, -⟩ := h
  have hempty : cell.render ∈ row.map Cell.render := List.mem_map_of_mem hcell
  rw [hrow, List.mem_singleton] at hempty
  simp [hempty] at hc

theorem not_lacksEscape_of_ok (hd : d.Valid) {row : Row} {line : String}
    (h : formatRow d row = .ok line) : ¬ LacksEscape d row := by
  rintro ⟨he, cell, hcell, c, hc, hbad⟩
  obtain ⟨pieces, hpieces, -⟩ := formatRow_eq_ok.mp h
  obtain ⟨piece, hpiece⟩ := exists_of_mapM_ok hpieces hcell
  exact not_escapable_iff.mpr ⟨he, c, hc, hbad⟩ (escapable_of_encodeCell hd hpiece)

theorem not_loneEmpty_of_ok {row : Row} {line : String}
    (h : formatRow d row = .ok line) : ¬ LoneEmpty d row := by
  rintro ⟨hn, hrow⟩
  obtain ⟨cell, rfl, hempty⟩ := List.map_eq_singleton_iff.mp hrow
  obtain ⟨pieces, hpieces, -⟩ := formatRow_eq_ok.mp h
  obtain ⟨piece, hpiece⟩ := exists_of_mapM_ok hpieces List.mem_cons_self
  simp [encodeCell, encodeField, hempty, encodeText, hn] at hpiece

def unwrap (d : Dialect) (piece : List Char) : List Char :=
  if 2 ≤ piece.length ∧ piece.head? = d.quote ∧ piece.getLast? = d.quote then piece.tail.dropLast
  else piece

/-- Two characters that stand for the second of them: an escape and what it is put before, or a
doubled quote. -/
def isPair (d : Dialect) (a b : Char) : Bool :=
  d.escape == some a && (d.quoting == .none || d.quote == some b || d.escape == some b) ||
    d.quote == some a && a == b

def unescape (d : Dialect) : List Char → List Char
  | [] => []
  | [c] => [c]
  | a :: b :: rest =>
    if isPair d a b then b :: unescape d rest else a :: unescape d (b :: rest)

theorem unescape_pair {a b : Char} (h : isPair d a b = true) (rest : List Char) :
    unescape d (a :: b :: rest) = b :: unescape d rest := by
  rw [unescape, if_pos h]

theorem unescape_plain {c : Char} (he : d.escape ≠ some c) (hq : d.quote ≠ some c)
    (rest : List Char) : unescape d (c :: rest) = c :: unescape d rest := by
  cases rest with
  | nil => rfl
  | cons b rest =>
    have hno : ¬ isPair d c b = true := by simp [isPair, he, hq]
    rw [unescape, if_neg hno]

theorem quote_ne_of_plain {c : Char} (hn : needsEscape d c = false) (hq : d.isQuote c = false) :
    d.quote ≠ some c := by
  intro hquote
  by_cases hquoting : d.quoting = .none
  · simp [needsEscape, isSpecial, hquoting, hquote] at hn
  · simp [Dialect.isQuote, hquoting, hquote] at hq

theorem escape_ne_of_not_needsEscape (hd : d.Valid) {c : Char} (hn : needsEscape d c = false) :
    d.escape ≠ some c := by
  intro he
  have hquote := hd.escape_ne_quote c he
  by_cases hquoting : d.quoting = .none
  · simp [needsEscape, isSpecial, hquoting, he] at hn
  · simp [needsEscape, hquoting, hquote, he] at hn

theorem isPair_of_needsEscape {c e : Char} (hn : needsEscape d c = true) (he : d.escape = some e) :
    isPair d e c = true := by
  by_cases hquoting : d.quoting = .none
  · simp [isPair, he, hquoting]
  · by_cases hquote : d.quote = some c
    · simp [isPair, he, hquote]
    · have hsame : d.escape = some c := by simpa [needsEscape, hquoting, hquote] using hn
      simp [isPair, he, ← hsame]

theorem unescape_encodeChar (hd : d.Valid) {c : Char}
    (h : needsEscape d c = true → ∃ e, d.escape = some e) (rest : List Char) :
    unescape d (encodeChar d c ++ rest) = c :: unescape d rest := by
  cases hn : needsEscape d c with
  | true =>
    obtain ⟨e, he⟩ := h hn
    rw [encodeChar_of_needsEscape hn he]
    exact unescape_pair (isPair_of_needsEscape hn he) rest
  | false =>
    cases hq : d.isQuote c with
    | true =>
      have hpair : isPair d c c = true := by simp [isPair, (Dialect.isQuote_iff.mp hq).2]
      rw [encodeChar_of_quote hn hq]
      exact unescape_pair hpair rest
    | false =>
      rw [encodeChar_of_plain hn hq]
      exact unescape_plain (escape_ne_of_not_needsEscape hd hn) (quote_ne_of_plain hn hq) rest

theorem unescape_flatMap (hd : d.Valid) (h : Escapable d text) :
    unescape d (text.flatMap (encodeChar d)) = text := by
  induction text with
  | nil => rfl
  | cons c text ih =>
    have hrest : Escapable d text := fun b hb => h b (List.mem_cons_of_mem c hb)
    rw [List.flatMap_cons, unescape_encodeChar hd (h c List.mem_cons_self), ih hrest]

/-- A text that is written without quotes does not begin with one. -/
theorem head?_flatMap_ne_quote (hd : d.Valid) (h : Escapable d text)
    (hbare : ∀ c ∈ text, Unquotable d c) {q : Char} (hq : d.quote = some q) :
    (text.flatMap (encodeChar d)).head? ≠ some q := by
  cases text with
  | nil => simp
  | cons c text =>
    rw [List.flatMap_cons]
    cases hn : needsEscape d c with
    | true =>
      obtain ⟨e, he⟩ := h c List.mem_cons_self hn
      rw [encodeChar_of_needsEscape hn he]
      intro hhead
      cases hhead
      exact hd.escape_ne_quote q he hq
    | false =>
      have hplain := (hbare c List.mem_cons_self).plain hn
      rw [encodeChar_of_plain hn hplain.not_quote]
      intro hhead
      cases hhead
      exact quote_ne_of_plain hn hplain.not_quote hq

theorem unwrap_quoted {q : Char} (hq : d.quote = some q) (body : List Char) :
    unwrap d (q :: (body ++ [q])) = body := by
  have hlast : (q :: (body ++ [q])).getLast? = d.quote := by
    rw [hq, ← List.cons_append, List.getLast?_concat]
  have hlength : 2 ≤ (q :: (body ++ [q])).length := by simp
  rw [unwrap, if_pos ⟨hlength, hq.symm, hlast⟩, List.tail_cons, List.dropLast_concat]

theorem unwrap_unquoted (h : ∀ q, d.quote = some q → piece.head? ≠ some q) :
    unwrap d piece = piece := by
  apply if_neg
  rintro ⟨hlength, hhead, -⟩
  cases piece with
  | nil => simp at hlength
  | cons c rest => exact h c hhead.symm rfl

theorem unescape_unwrap (hd : d.Valid) {alone : Bool} {cell : Cell}
    (h : encodeCell d alone cell = .ok piece) :
    unescape d (unwrap d piece) = cell.render.toList := by
  cases encodes_of_encodeCell hd h with
  | quoted hq hescape =>
    rw [unwrap_quoted (Dialect.isQuote_iff.mp hq).2]
    exact unescape_flatMap hd hescape
  | unquoted _ hescape _ hbare =>
    rw [bodyOf, unwrap_unquoted fun q => head?_flatMap_ne_quote hd hescape hbare]
    exact unescape_flatMap hd hescape

theorem map_unescape_unwrap (hd : d.Valid) {alone : Bool} {cells : Row} {pieces : List (List Char)}
    (h : cells.mapM (encodeCell d alone) = .ok pieces) :
    pieces.map (fun piece => unescape d (unwrap d piece)) = cells.map (·.render.toList) := by
  induction cells generalizing pieces with
  | nil =>
    cases h
    rfl
  | cons cell cells ih =>
    obtain ⟨first, others, hfirst, hothers, rfl⟩ := mapM_cons_eq_ok.mp h
    rw [List.map_cons, List.map_cons, unescape_unwrap hd hfirst, ih hothers]

/-- The rows that a writer refuses and why, and what the lines of the others hold. -/
theorem format_refuses_exactly (w : Writer) (hd : w.dialect.validate = .ok ()) (row : Row) :
    ((w.format row).result = .error .escapeRequired ↔ LacksEscape w.dialect row) ∧
    ((w.format row).result = .error .emptyFieldUnquoted ↔ LoneEmpty w.dialect row) ∧
    (¬ LacksEscape w.dialect row → ¬ LoneEmpty w.dialect row → ∃ pieces,
      row.mapM (encodeCell w.dialect (row.length == 1)) = .ok pieces ∧
      (w.format row).result =
        .ok (String.ofList ([w.dialect.delimiter].intercalate pieces) ++ w.dialect.terminator) ∧
      pieces.map (fun piece => unescape w.dialect (unwrap w.dialect piece)) =
        row.map (·.render.toList)) := by
  have hvalid := Dialect.validate_eq_ok.mp hd
  rw [format_result]
  cases h : formatRow w.dialect row with
  | error cause =>
    rcases formatRow_error_cases h with ⟨rfl, hlacks⟩ | ⟨rfl, hlone⟩
    · have hlone := not_loneEmpty_of_lacksEscape hlacks
      simp [hlacks, hlone]
    · have hlacks := mt not_loneEmpty_of_lacksEscape (not_not_intro hlone)
      simp [hlacks, hlone]
  | ok line =>
    have hlacks := not_lacksEscape_of_ok hvalid h
    have hlone := not_loneEmpty_of_ok h
    obtain ⟨pieces, hpieces, rfl⟩ := formatRow_eq_ok.mp h
    simp only [reduceCtorEq, hlacks, hlone, true_and, not_false_eq_true, true_implies]
    exact ⟨pieces, hpieces, rfl, map_unescape_unwrap hvalid hpieces⟩

theorem format_refuses_exactly_bare :
    let w : Writer := { dialect := { quoting := .none } }
    (w.format [.text "a", .text "b,c"]).result = .error .escapeRequired ∧
      (w.format [.text ""]).result = .error .emptyFieldUnquoted ∧
      ∃ line, (w.format [.text "", .text "b"]).result = .ok line := by
  intro w
  have hlacks : ¬ LacksEscape w.dialect [.text "", .text "b"] := by decide
  have hlone : ¬ LoneEmpty w.dialect [.text "", .text "b"] := by decide
  obtain ⟨pieces, -, hline, -⟩ := (format_refuses_exactly w rfl _).2.2 hlacks hlone
  refine ⟨?_, ?_, _, hline⟩
  · exact (format_refuses_exactly w rfl _).1.mpr (by decide)
  · exact (format_refuses_exactly w rfl _).2.1.mpr (by decide)

end Tabular.Writer
