import Tabular.Dialect

/-! # Dialects without faults

What a dialect that passes `Dialect.validate` promises about its special characters.
-/
namespace Tabular.Dialect

structure Valid (d : Dialect) : Prop where
  quote_set : d.quoting ≠ .none → ∃ q, d.quote = some q
  quote_ne_delimiter : d.quote ≠ some d.delimiter
  escape_ne_delimiter : d.escape ≠ some d.delimiter
  escape_ne_quote : ∀ e, d.escape = some e → d.quote ≠ some e
  delimiter_not_break : isBreak d.delimiter = false
  terminator_ne_empty : d.terminator ≠ ""

theorem valid_of_fault?_eq_none {d : Dialect} (h : d.fault? = none) : d.Valid := by
  unfold fault? at h
  repeat' split at h
  all_goals cases h
  rename_i hset hquote hescape hboth hbreak hterm
  constructor
  · intro hq
    exact Option.ne_none_iff_exists'.mp fun hn => hset ⟨hq, hn⟩
  · exact hquote
  · exact hescape
  · intro e he hq
    exact hboth ⟨by simp [he], he.trans hq.symm⟩
  · exact Bool.eq_false_iff.mpr hbreak
  · exact hterm

theorem fault?_eq_none_of_valid {d : Dialect} (h : d.Valid) : d.fault? = none := by
  have hset : ¬ (d.quoting ≠ .none ∧ d.quote = none) := by
    rintro ⟨hq, hn⟩
    obtain ⟨q, hs⟩ := h.quote_set hq
    cases hn.symm.trans hs
  have hboth : ¬ (d.escape ≠ none ∧ d.escape = d.quote) := by
    rintro ⟨hn, heq⟩
    obtain ⟨e, he⟩ := Option.ne_none_iff_exists'.mp hn
    exact h.escape_ne_quote e he (heq.symm.trans he)
  have hbreak : ¬ isBreak d.delimiter = true := Bool.eq_false_iff.mp h.delimiter_not_break
  unfold fault?
  rw [if_neg hset, if_neg h.quote_ne_delimiter, if_neg h.escape_ne_delimiter, if_neg hboth,
    if_neg hbreak, if_neg h.terminator_ne_empty]

theorem validate_eq_ok {d : Dialect} : d.validate = .ok () ↔ d.Valid := by
  have hf : d.validate = .ok () ↔ d.fault? = none := by
    unfold validate
    cases d.fault? <;> simp
  exact hf.trans ⟨valid_of_fault?_eq_none, fault?_eq_none_of_valid⟩

structure BreakFree (d : Dialect) : Prop where
  quote : ∀ q, d.quote = some q → isBreak q = false
  escape : ∀ e, d.escape = some e → isBreak e = false

theorem any_isBreak_eq_false_iff {d : Dialect} :
    (d.quote.any isBreak || d.escape.any isBreak) = false ↔ d.BreakFree := by
  rw [Bool.or_eq_false_iff, Option.any_eq_false, Option.any_eq_false]
  constructor
  · rintro ⟨hquote, hescape⟩
    exact ⟨hquote, hescape⟩
  · rintro ⟨hquote, hescape⟩
    exact ⟨hquote, hescape⟩

instance (d : Dialect) : Decidable d.BreakFree := decidable_of_iff _ any_isBreak_eq_false_iff

/-- Quotes and escapes that do not break a line where a writer puts them. Escapes between quotes may
be carriage returns, since there a line feed alone makes a difference. -/
structure Separable (d : Dialect) : Prop where
  quote : d.quoting ≠ .none → ∀ q, d.quote = some q → isBreak q = false
  escape : d.escape ≠ some '\n'
  bareEscape : d.quoting = .none → d.escape ≠ some '\r'

theorem BreakFree.separable {d : Dialect} (h : d.BreakFree) : d.Separable := by
  refine ⟨fun _ => h.quote, fun he => ?_, fun _ he => ?_⟩
  · cases h.escape _ he
  · cases h.escape _ he

variable {d : Dialect} {c : Char}

theorem isQuote_iff : d.isQuote c = true ↔ d.quoting ≠ .none ∧ d.quote = some c := by
  simp [isQuote]

theorem isQuote_unique {q : Char} (hq : d.isQuote q = true) : d.isQuote c = true ↔ c = q := by
  constructor
  · intro hc
    exact Option.some.inj ((isQuote_iff.mp hc).2.symm.trans (isQuote_iff.mp hq).2)
  · rintro rfl
    exact hq

theorem isEscape_iff : d.isEscape c = true ↔ d.escape = some c := by
  simp [isEscape]

theorem Separable.isQuote_of_break (h : d.Separable) (hc : isBreak c = true) :
    d.isQuote c = false := by
  rw [Bool.eq_false_iff]
  intro hq
  obtain ⟨hquoting, hquote⟩ := isQuote_iff.mp hq
  have := h.quote hquoting c hquote
  simp [hc] at this

theorem BreakFree.isEscape_of_break (h : d.BreakFree) (hc : isBreak c = true) :
    d.isEscape c = false := by
  rw [Bool.eq_false_iff]
  intro he
  have := h.escape c (isEscape_iff.mp he)
  simp [hc] at this

theorem Valid.ne_delimiter_of_break (h : d.Valid) (hc : isBreak c = true) : c ≠ d.delimiter := by
  rintro rfl
  have := h.delimiter_not_break
  simp [hc] at this

theorem Valid.isQuote_delimiter (h : d.Valid) : d.isQuote d.delimiter = false := by
  rw [Bool.eq_false_iff]
  exact fun hq => h.quote_ne_delimiter (isQuote_iff.mp hq).2

theorem Valid.isEscape_delimiter (h : d.Valid) : d.isEscape d.delimiter = false := by
  rw [Bool.eq_false_iff]
  exact fun he => h.escape_ne_delimiter (isEscape_iff.mp he)

theorem Valid.isEscape_of_quote (h : d.Valid) (hc : d.isQuote c = true) : d.isEscape c = false := by
  rw [Bool.eq_false_iff]
  exact fun he => h.escape_ne_quote c (isEscape_iff.mp he) (isQuote_iff.mp hc).2

theorem Valid.isQuote_of_escape (h : d.Valid) (hc : d.isEscape c = true) : d.isQuote c = false := by
  rw [Bool.eq_false_iff]
  exact fun hq => h.escape_ne_quote c (isEscape_iff.mp hc) (isQuote_iff.mp hq).2

end Tabular.Dialect
