import Tabular.Proofs.Dialect
import Tabular.Proofs.Reader.Machine

/-! # The end of a field

Whatever way a field was written, the machine that has read it may end it at a delimiter or at a
line break, and it is the same machine afterwards.
-/
namespace Tabular.Reader.Machine

variable {d : Dialect} {limit : Nat} {m : Machine} {c : Char}

theorem step_of_move {next : State} (h : Action.ofChar d c m.state = .move next) :
    m.step d limit (some c) = .ok (m.goto next) := by
  rw [step_some, h]
  rfl

theorem step_of_take {next : State} (h : Action.ofChar d c m.state = .take c next)
    (hsize : m.field.size < limit) :
    m.step d limit (some c) = .ok (of next m.fields (m.field.push c) m.numeric) := by
  rw [step_some, h]
  exact addThen_eq_ok.mpr ⟨hsize, rfl⟩

theorem step_of_start (h : Action.ofChar d c m.state = .start c) (hsize : m.field.size < limit) :
    m.step d limit (some c) = .ok
      (of .inField m.fields (m.field.push c) (m.numeric || d.quoting == .nonNumeric)) := by
  rw [step_some, h]
  exact addThen_eq_ok.mpr ⟨hsize, rfl⟩

/-- A record starts with its first field, except for a line break. -/
theorem step_startRecord (hc : isBreak c = false) :
    (m.goto .startRecord).step d limit (some c) = (m.goto .startField).step d limit (some c) := by
  rw [step_some, step_some, perform_goto, perform_goto]
  simp [goto, Action.ofChar, hc]

/-- The machine behind the end of a field that holds `text`, with the fields `done` before it. -/
def closed (next : State) (done : Array String) (text : List Char) : Machine :=
  of next (done.push (String.ofList text)) #[] false

structure Holds (m : Machine) (done : Array String) (text : List Char) : Prop where
  state : m.state = .startField ∨ m.state = .inField ∨ m.state = .afterEscapedBreak ∨
    m.state = .quoteInQuoted
  fields : m.fields = done
  field : m.field.toList = text
  numeric : m.numeric = true → Decimal.isNumber (String.ofList text) = true

namespace Holds

variable {done : Array String} {text : List Char}

theorem close (h : m.Holds done text) (next : State) :
    m.close next = .ok (closed next done text) := by
  rw [close_eq_ok, h.field, h.fields]
  exact ⟨h.numeric, rfl⟩

theorem step_of_close (h : m.Holds done text) {next : State}
    (hc : Action.ofChar d c m.state = .close next) :
    m.step d limit (some c) = .ok (closed next done text) := by
  rw [step_some, hc]
  exact h.close next

theorem step_delimiter (h : m.Holds done text) (hd : d.Valid)
    (hspace : m.state = .startField → d.delimiter = ' ' → d.skipInitialSpace = false) :
    m.step d limit (some d.delimiter) = .ok (closed .startField done text) := by
  have hbreak := hd.delimiter_not_break
  have hquote := hd.isQuote_delimiter
  have hescape := hd.isEscape_delimiter
  apply h.step_of_close
  rcases h.state with hs | hs | hs | hs
  · have hskip : ¬ (d.delimiter = ' ' ∧ d.skipInitialSpace = true) := by
      rintro ⟨hdelim, hskip⟩
      simp [hspace hs hdelim] at hskip
    simp [hs, Action.ofChar, Action.ofFieldStart, hbreak, hquote, hescape, hskip]
  · simp [hs, Action.ofChar, Action.ofField, hbreak, hescape]
  · simp [hs, Action.ofChar, Action.ofField, hbreak, hescape]
  · simp [hs, Action.ofChar, Action.ofQuoteInQuoted, hquote]

theorem step_break (h : m.Holds done text) (hd : d.Valid) (hb : d.Separable)
    (hc : isBreak c = true) : m.step d limit (some c) = .ok (closed .afterBreak done text) := by
  have hquote := hb.isQuote_of_break hc
  have hdelim := hd.ne_delimiter_of_break hc
  apply h.step_of_close
  rcases h.state with hs | hs | hs | hs
  · simp [hs, Action.ofChar, hc]
  · simp [hs, Action.ofChar, Action.ofField, hc]
  · simp [hs, Action.ofChar, Action.ofField, hc]
  · simp [hs, Action.ofChar, Action.ofQuoteInQuoted, hc, hquote, hdelim]

theorem step_end (h : m.Holds done text) (hs : m.state ≠ .afterEscapedBreak) :
    m.step d limit none = .ok (closed .startRecord done text) := by
  rw [step_none]
  rcases h.state with hm | hm | hm | hm
  · rw [hm]
    exact h.close .startRecord
  · rw [hm]
    exact h.close .startRecord
  · exact absurd hm hs
  · rw [hm]
    exact h.close .startRecord

end Holds

theorem ne_nul_of_isBreak (hc : isBreak c = true) : c ≠ '\x00' := by
  rintro rfl
  simp [isBreak] at hc

theorem step_afterBreak (hs : m.state = .afterBreak) (hc : isBreak c = true) :
    m.step d limit (some c) = .ok m := by
  have hstep : m.step d limit (some c) = .ok (m.goto .afterBreak) :=
    step_of_move (by simp [hs, Action.ofChar, hc])
  rw [hstep, ← hs]
  rfl

theorem step_end_afterBreak (hs : m.state = .afterBreak) :
    m.step d limit none = .ok (m.goto .startRecord) := by
  rw [step_none, hs]
  rfl

end Tabular.Reader.Machine
