import Tabular.Proofs.Reader.Reads
import Tabular.Proofs.Writer.Row

/-! # Reading written cells

The machine reads the written form of a cell, quoted or not, and is left with the text of the cell
in its open field. Line feeds inside the cell may cut its written form into several lines.
-/
namespace Tabular

/-- A dialect whose special characters a reader can tell apart at the places where a writer puts
them. -/
structure Dialect.Faithful (d : Dialect) : Prop where
  valid : d.Valid
  separable : d.Separable
  delimiter_ne_nul : d.delimiter ≠ '\x00'
  quote_ne_nul : d.quote ≠ some '\x00'
  escape_ne_nul : d.escape ≠ some '\x00'
  terminator : ∃ n, d.terminator.toList = List.replicate n '\r' ++ ['\n']
  space : d.skipInitialSpace = true → d.quoting = .all ∨ d.delimiter ≠ ' '

/-- A cell that can be told from its written form: a reader skips no blank of its text, and takes
the text for a number if it counts as one. -/
structure Cell.Readable (d : Dialect) (limit : Nat) (cell : Cell) : Prop where
  nul : '\x00' ∉ cell.render.toList
  length : cell.render.toList.length ≤ limit
  numeric : d.quoting = .nonNumeric → cell.isNumeric = true →
    Decimal.isNumber cell.render = true
  space : d.skipInitialSpace = true → d.quoting = .all ∨ cell.render.toList.head? ≠ some ' '

theorem ne_lineFeed_of_isBreak {c : Char} (h : isBreak c = false) : c ≠ '\n' := by
  rintro rfl
  cases h

namespace Dialect.Faithful

variable {d : Dialect} {c : Char}

theorem ne_nul_of_isQuote (hd : d.Faithful) (hc : d.isQuote c = true) : c ≠ '\x00' := by
  rintro rfl
  exact hd.quote_ne_nul (isQuote_iff.mp hc).2

theorem isBreak_of_isQuote (hd : d.Faithful) (hc : d.isQuote c = true) : isBreak c = false :=
  hd.separable.quote (isQuote_iff.mp hc).1 c (isQuote_iff.mp hc).2

theorem ne_nul_of_isEscape (hd : d.Faithful) (hc : d.isEscape c = true) : c ≠ '\x00' := by
  rintro rfl
  exact hd.escape_ne_nul (isEscape_iff.mp hc)

theorem ne_lineFeed_of_isEscape (hd : d.Faithful) (hc : d.isEscape c = true) : c ≠ '\n' := by
  rintro rfl
  exact hd.separable.escape (isEscape_iff.mp hc)

theorem isBreak_of_bareEscape (hd : d.Faithful) (hn : d.quoting = .none)
    (hc : d.isEscape c = true) :
    isBreak c = false := by
  have hreturn : c ≠ '\r' := by
    rintro rfl
    exact hd.separable.bareEscape hn (isEscape_iff.mp hc)
  simp [isBreak, hreturn, hd.ne_lineFeed_of_isEscape hc]

end Dialect.Faithful

namespace Reader.Machine

open Writer

variable {d : Dialect} {limit : Nat} {done : Array String}

theorem reads_quoted_char (hd : d.Faithful) (hquoting : d.quoting ≠ .none) {c : Char}
    (hnul : c ≠ '\x00') (hescape : needsEscape d c = true → ∃ e, d.escape = some e)
    {field : Array Char} (hsize : field.size < limit) :
    Reads d limit (.of .inQuoted done field false) (encodeChar d c)
      (.of .inQuoted done (field.push c) false) := by
  cases hn : needsEscape d c with
  | true =>
    obtain ⟨e, he⟩ := hescape hn
    have he' : d.isEscape e = true := Dialect.isEscape_iff.mpr he
    have hfirst : step d limit (.of .inQuoted done field false) (some e) =
        .ok (.of .escapedInQuoted done field false) :=
      step_of_move (by simp [Action.ofChar, he'])
    have hsecond : step d limit (.of .escapedInQuoted done field false) (some c) =
        .ok (.of .inQuoted done (field.push c) false) :=
      step_of_take rfl hsize
    rw [encodeChar_of_needsEscape hn he]
    refine .cons (hd.ne_nul_of_isEscape he') hfirst ?_ (.single hnul hsecond fun _ => .inl rfl)
    exact fun h => absurd h (hd.ne_lineFeed_of_isEscape he')
  | false =>
    cases hq : d.isQuote c with
    | true =>
      have hdouble : d.doubleQuote = true := by
        simpa [needsEscape, hquoting, (Dialect.isQuote_iff.mp hq).2] using hn
      have hne := ne_lineFeed_of_isBreak (hd.isBreak_of_isQuote hq)
      have hfirst : step d limit (.of .inQuoted done field false) (some c) =
          .ok (.of .quoteInQuoted done field false) :=
        step_of_move (by simp [Action.ofChar, hd.valid.isEscape_of_quote hq, hq])
      have hsecond : step d limit (.of .quoteInQuoted done field false) (some c) =
          .ok (.of .inQuoted done (field.push c) false) :=
        step_of_take (by simp [Action.ofChar, Action.ofQuoteInQuoted, hdouble, hq]) hsize
      rw [encodeChar_of_quote hn hq]
      exact .cons hnul hfirst (fun h => absurd h hne) (.single hnul hsecond fun h => absurd h hne)
    | false =>
      have hquote : d.quote ≠ some c := fun h => by simp [Dialect.isQuote, hquoting, h] at hq
      have he : d.isEscape c = false := by
        simpa [needsEscape, hquoting, hquote, Dialect.isEscape] using hn
      have hstep : step d limit (.of .inQuoted done field false) (some c) =
          .ok (.of .inQuoted done (field.push c) false) :=
        step_of_take (by simp [Action.ofChar, he, hq]) hsize
      rw [encodeChar_of_plain hn hq]
      exact .single hnul hstep fun _ => .inl rfl

theorem reads_quoted_text (hd : d.Faithful) (hquoting : d.quoting ≠ .none) {text : List Char}
    (hnul : '\x00' ∉ text) (hescape : Escapable d text) (field : Array Char)
    (hsize : field.size + text.length ≤ limit) :
    Reads d limit (.of .inQuoted done field false) (text.flatMap (encodeChar d))
      (.of .inQuoted done (field ++ text.toArray) false) := by
  induction text generalizing field with
  | nil => simpa using Reads.nil
  | cons c text ih =>
    obtain ⟨hc, ht⟩ := List.ne_and_not_mem_of_not_mem_cons hnul
    simp only [List.length_cons] at hsize
    have hfirst : Reads d limit (.of .inQuoted done field false) (encodeChar d c)
        (.of .inQuoted done (field.push c) false) :=
      reads_quoted_char hd hquoting hc.symm (hescape c List.mem_cons_self) (by omega)
    have hrest := ih ht (fun b hb => hescape b (List.mem_cons_of_mem c hb)) (field.push c)
      (by simp only [Array.size_push]; omega)
    have hfield : field.push c ++ text.toArray = field ++ (c :: text).toArray := by simp
    rw [List.flatMap_cons, ← hfield]
    exact hfirst.append hrest

theorem reads_quoted_cell (hd : d.Faithful) {q : Char} (hq : d.isQuote q = true)
    {text : List Char} (hnul : '\x00' ∉ text) (hescape : Escapable d text)
    (hsize : text.length ≤ limit) :
    Reads d limit (.of .startField done #[] false) (q :: (text.flatMap (encodeChar d) ++ [q]))
      (.of .quoteInQuoted done text.toArray false) := by
  have hne := ne_lineFeed_of_isBreak (hd.isBreak_of_isQuote hq)
  have hqnul := hd.ne_nul_of_isQuote hq
  have hopen : step d limit (.of .startField done #[] false) (some q) =
      .ok (.of .inQuoted done #[] false) :=
    step_of_move (by simp [Action.ofChar, Action.ofFieldStart, hd.isBreak_of_isQuote hq, hq])
  have hclose : step d limit (.of .inQuoted done text.toArray false) (some q) =
      .ok (.of .quoteInQuoted done text.toArray false) :=
    step_of_move (by simp [Action.ofChar, hd.valid.isEscape_of_quote hq, hq])
  have hinside : Reads d limit (.of .inQuoted done #[] false) (text.flatMap (encodeChar d))
      (.of .inQuoted done text.toArray false) := by
    have hquoting := (Dialect.isQuote_iff.mp hq).1
    simpa using reads_quoted_text hd hquoting hnul hescape #[] (by simpa using hsize)
  exact .cons hqnul hopen (fun h => absurd h hne)
    (hinside.append (.single hqnul hclose fun h => absurd h hne))

theorem exists_reads_quoted (hd : d.Faithful) {q : Char} (hq : d.isQuote q = true)
    {text : List Char} (hnul : '\x00' ∉ text) (hescape : Escapable d text)
    (hsize : text.length ≤ limit) (done : Array String) :
    ∃ m, Reads d limit (.of .startField done #[] false)
        (q :: (text.flatMap (encodeChar d) ++ [q])) m ∧
      m.Holds done text ∧
      (m.state = .startField → d.delimiter = ' ' → d.skipInitialSpace = false) := by
  refine ⟨_, reads_quoted_cell hd hq hnul hescape hsize, ?_, fun hs => by cases hs⟩
  exact ⟨.inr (.inr (.inr rfl)), rfl, rfl, fun hm => by cases hm⟩

structure Unquoted (d : Dialect) (m : Machine) (done : Array String) (text : List Char) : Prop where
  state : m.state = .startField ∧ text = [] ∨ m.state = .inField ∨ m.state = .afterEscapedBreak
  fields : m.fields = done
  field : m.field.toList = text
  numeric : m.numeric = true → d.quoting = .nonNumeric ∧ text ≠ []

theorem unquoted_startField (done : Array String) :
    Unquoted d (.of .startField done #[] false) done [] :=
  ⟨.inl ⟨rfl, rfl⟩, rfl, rfl, fun hm => by cases hm⟩

namespace Unquoted

variable {m : Machine} {c : Char} {text : List Char}

theorem size (h : Unquoted d m done text) : m.field.size = text.length := by
  rw [← h.field, Array.length_toList]

theorem step_escape (h : Unquoted d m done text) (hd : d.Faithful) (hn : d.quoting = .none)
    (hc : d.isEscape c = true) : m.step d limit (some c) = .ok (m.goto .escaped) := by
  have hbreak := hd.isBreak_of_bareEscape hn hc
  have hquote := hd.valid.isQuote_of_escape hc
  apply step_of_move
  rcases h.state with ⟨hs, -⟩ | hs | hs
  · simp [hs, Action.ofChar, Action.ofFieldStart, hbreak, hquote, hc]
  · simp [hs, Action.ofChar, Action.ofField, hbreak, hc]
  · simp [hs, Action.ofChar, Action.ofField, hbreak, hc]

theorem reads_escaped (h : Unquoted d m done text) (hd : d.Faithful) (hn : d.quoting = .none)
    {e : Char} (he : d.isEscape e = true) (hnul : c ≠ '\x00') (hsize : text.length < limit) :
    ∃ m', Reads d limit m [e, c] m' ∧ Unquoted d m' done (text ++ [c]) := by
  have hne := hd.ne_lineFeed_of_isEscape he
  have hstep : (m.goto .escaped).step d limit (some c) = .ok (.of
      (if isBreak c then .afterEscapedBreak else .inField) m.fields (m.field.push c) m.numeric) :=
    step_of_take rfl (by simpa [goto, h.size] using hsize)
  refine ⟨_, .cons (hd.ne_nul_of_isEscape he) (h.step_escape hd hn he) (fun hc => absurd hc hne)
    (.single hnul hstep ?_), ?_⟩
  · rintro rfl
    exact .inr rfl
  · refine ⟨.inr ?_, h.fields, by simp [h.field], fun hm => ⟨(h.numeric hm).1, by simp⟩⟩
    cases isBreak c <;> simp

theorem reads_plain (h : Unquoted d m done text) (hc : Plain d c) (hnul : c ≠ '\x00')
    (hspace : text = [] → c = ' ' → d.skipInitialSpace = false) (hsize : text.length < limit) :
    ∃ m', Reads d limit m [c] m' ∧ Unquoted d m' done (text ++ [c]) := by
  have hne := ne_lineFeed_of_isBreak hc.not_break
  rw [← h.size] at hsize
  rcases h.state with ⟨hs, htext⟩ | hs | hs
  · have hskip : ¬ (c = ' ' ∧ d.skipInitialSpace = true) := by
      rintro ⟨hblank, hskip⟩
      simp [hspace htext hblank] at hskip
    have hact : Action.ofChar d c m.state = .start c := by
      simp [hs, Action.ofChar, Action.ofFieldStart, hc.not_break, hc.not_quote, hc.not_escape,
        hc.ne_delimiter, hskip]
    refine ⟨_, .single hnul (step_of_start hact hsize) fun hb => absurd hb hne, ?_⟩
    refine ⟨.inr (.inl rfl), h.fields, by simp [h.field], fun hm => ⟨?_, by simp⟩⟩
    simp only [Bool.or_eq_true, beq_iff_eq] at hm
    rcases hm with hm | hm
    · exact (h.numeric hm).1
    · exact hm
  · have hact : Action.ofChar d c m.state = .take c .inField := by
      simp [hs, Action.ofChar, Action.ofField, hc.not_break, hc.not_escape, hc.ne_delimiter]
    refine ⟨_, .single hnul (step_of_take hact hsize) fun hb => absurd hb hne, ?_⟩
    exact ⟨.inr (.inl rfl), h.fields, by simp [h.field], fun hm => ⟨(h.numeric hm).1, by simp⟩⟩
  · have hact : Action.ofChar d c m.state = .take c .afterEscapedBreak := by
      simp [hs, Action.ofChar, Action.ofField, hc.not_break, hc.not_escape, hc.ne_delimiter]
    refine ⟨_, .single hnul (step_of_take hact hsize) fun hb => absurd hb hne, ?_⟩
    exact ⟨.inr (.inr rfl), h.fields, by simp [h.field], fun hm => ⟨(h.numeric hm).1, by simp⟩⟩

theorem reads_char (h : Unquoted d m done text) (hd : d.Faithful) (hc : Unquotable d c)
    (hnul : c ≠ '\x00') (hescape : needsEscape d c = true → ∃ e, d.escape = some e)
    (hspace : text = [] → c = ' ' → d.skipInitialSpace = false) (hsize : text.length < limit) :
    ∃ m', Reads d limit m (encodeChar d c) m' ∧ Unquoted d m' done (text ++ [c]) := by
  cases hn : needsEscape d c with
  | true =>
    obtain ⟨e, he⟩ := hescape hn
    rw [encodeChar_of_needsEscape hn he]
    exact h.reads_escaped hd (hc.quoting_eq_none hn) (Dialect.isEscape_iff.mpr he) hnul hsize
  | false =>
    have hplain := hc.plain hn
    rw [encodeChar_of_plain hn hplain.not_quote]
    exact h.reads_plain hplain hnul hspace hsize

theorem reads_text (h : Unquoted d m done text) (hd : d.Faithful) {more : List Char}
    (hmore : ∀ c ∈ more, Unquotable d c) (hnul : '\x00' ∉ more) (hescape : Escapable d more)
    (hspace : text = [] → more.head? = some ' ' → d.skipInitialSpace = false)
    (hsize : text.length + more.length ≤ limit) :
    ∃ m', Reads d limit m (more.flatMap (encodeChar d)) m' ∧ Unquoted d m' done (text ++ more) := by
  induction more generalizing m text with
  | nil => exact ⟨m, .nil, by simpa using h⟩
  | cons c more ih =>
    obtain ⟨hc, hrest⟩ := List.ne_and_not_mem_of_not_mem_cons hnul
    simp only [List.length_cons] at hsize
    obtain ⟨m₁, hfirst, h₁⟩ := h.reads_char hd (hmore c List.mem_cons_self) hc.symm
      (hescape c List.mem_cons_self) (fun ht hb => hspace ht (by simp [hb]))
      (by omega : text.length < limit)
    obtain ⟨m₂, hothers, h₂⟩ := ih h₁ (fun b hb => hmore b (List.mem_cons_of_mem c hb)) hrest
      (fun b hb => hescape b (List.mem_cons_of_mem c hb)) (fun ht => by simp at ht)
      (by simp only [List.length_append, List.length_singleton]; omega)
    refine ⟨m₂, ?_, by simpa using h₂⟩
    rw [List.flatMap_cons]
    exact hfirst.append hothers

theorem holds (h : Unquoted d m done text)
    (hnumber : d.quoting = .nonNumeric → Decimal.isNumber (String.ofList text) = true) :
    m.Holds done text := by
  refine ⟨?_, h.fields, h.field, fun hm => hnumber (h.numeric hm).1⟩
  rcases h.state with ⟨hs, -⟩ | hs | hs
  · exact .inl hs
  · exact .inr (.inl hs)
  · exact .inr (.inr (.inl hs))

end Unquoted

theorem reads_cell (hd : d.Faithful) {alone : Bool} {cell : Cell} {piece : List Char}
    (hcell : cell.Readable d limit) (h : Encodes d alone cell piece) (done : Array String) :
    ∃ m, Reads d limit (.of .startField done #[] false) piece m ∧
      m.Holds done cell.render.toList ∧
      (m.state = .startField → d.delimiter = ' ' → d.skipInitialSpace = false) := by
  cases h with
  | quoted hq hescape => exact exists_reads_quoted hd hq hcell.nul hescape hcell.length done
  | unquoted _ hescape hquotes hplain =>
    -- A cell without quotes was not written under `all`, so no blank of it is skipped.
    have hall : d.quoting ≠ .all := by
      intro ha
      have := hquotes (by simp [ha])
      simp [quotesCell, ha] at this
    have hskip : ∀ {p : Prop}, (d.skipInitialSpace = true → d.quoting = .all ∨ ¬ p) → p →
        d.skipInitialSpace = false := by
      intro p hp h
      rw [Bool.eq_false_iff]
      intro hs
      rcases hp hs with ha | hn
      · exact hall ha
      · exact hn h
    obtain ⟨m, hreads, hm⟩ := (unquoted_startField done).reads_text hd hplain hcell.nul hescape
      (fun _ => hskip hcell.space) (by simpa using hcell.length)
    refine ⟨m, hreads, hm.holds fun hnumeric => ?_, fun _ => hskip hd.space⟩
    have hquoted := hquotes (by simp [hnumeric])
    rw [List.nil_append, String.ofList_toList]
    exact hcell.numeric hnumeric (by simpa [quotesCell, hnumeric] using hquoted)

/-- However the cell is written, the machine reads it as `text`. -/
def ReadsAs (d : Dialect) (limit : Nat) (cell : Cell) (text : List Char) : Prop :=
  ∀ {alone : Bool} {piece : List Char}, encodeCell d alone cell = .ok piece →
    ∀ done : Array String, ∃ m, Reads d limit (.of .startField done #[] false) piece m ∧
      m.Holds done text ∧
      (m.state = .startField → d.delimiter = ' ' → d.skipInitialSpace = false)

theorem readsAs_render (hd : d.Faithful) {cell : Cell} (hcell : cell.Readable d limit) :
    ReadsAs d limit cell cell.render.toList := by
  intro alone piece h done
  exact reads_cell hd hcell (encodes_of_encodeCell hd.valid h) done

/-- A cell between quotes reads as its text, whatever that is. -/
theorem readsAs_of_wraps (hd : d.Faithful) {cell : Cell} (hw : wraps d cell = true)
    (hnul : '\x00' ∉ cell.render.toList) (hsize : cell.render.toList.length ≤ limit) :
    ReadsAs d limit cell cell.render.toList := by
  intro alone piece h done
  cases encodes_of_encodeCell hd.valid h with
  | quoted hq hescape => exact exists_reads_quoted hd hq hnul hescape hsize done
  | unquoted _ _ hquotes hplain => simp [wraps_eq_false hquotes hplain] at hw

end Reader.Machine

end Tabular
