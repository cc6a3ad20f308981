import Tabular.Proofs.Dialect
import Tabular.Proofs.Reader.Machine
import Tabular.Proofs.Reader.Requests

/-! # Lines without a terminator

A line that lacks its terminator ends where it ends: if a line feed behind it would have completed
the record, the end of the line completes it. The exception is an unquoted field that holds an
escaped line break. A line that ends with such a break is continued by the next one.
-/
namespace Tabular.Reader

variable {d : Dialect} {limit : Nat}

namespace Machine

theorem close_startRecord_of_afterBreak {m m₁ m₂ : Machine} (h₁ : m.close .afterBreak = .ok m₁)
    (h₂ : m₁.step d limit none = .ok m₂) : m.close .startRecord = .ok m₂ := by
  obtain ⟨hnumeric, rfl⟩ := close_eq_ok.mp h₁
  cases h₂
  exact close_eq_ok.mpr ⟨hnumeric, rfl⟩

/-- Outside an unquoted field with an escaped break, the end of a line does what a line feed and
the end of a line do, where these complete the record. -/
theorem step_none_of_lineFeed (hd : d.Valid) (hb : d.BreakFree) {m m₁ m₂ : Machine}
    (hm : m.state ≠ .afterEscapedBreak) (h₁ : m.step d limit (some '\n') = .ok m₁)
    (h₂ : m₁.step d limit none = .ok m₂) (hs : m₂.state = .startRecord) :
    m.step d limit none = .ok m₂ := by
  have hbreak : isBreak '\n' = true := rfl
  have hquote := hb.separable.isQuote_of_break hbreak
  have hescape := hb.isEscape_of_break hbreak
  have hdelim := hd.ne_delimiter_of_break hbreak
  rw [step_some] at h₁
  rw [step_none]
  rcases m with ⟨state, fields, field, length, numeric, hlength⟩
  cases state with
  | startRecord | afterBreak =>
    cases h₁
    exact h₂
  | startField => exact close_startRecord_of_afterBreak h₁ h₂
  | inField =>
    simp only [Action.ofChar, Action.ofField, hbreak, if_true] at h₁
    exact close_startRecord_of_afterBreak h₁ h₂
  | quoteInQuoted =>
    simp only [Action.ofChar, Action.ofQuoteInQuoted, hbreak, hquote, Bool.and_false,
      Bool.false_eq_true, if_false, if_true, beq_iff_eq, hdelim] at h₁
    exact close_startRecord_of_afterBreak h₁ h₂
  | escaped | escapedInQuoted =>
    obtain ⟨-, rfl⟩ := addThen_eq_ok.mp h₁
    cases h₂
    cases hs
  | inQuoted =>
    simp only [Action.ofChar, hescape, hquote, Bool.false_eq_true, if_false] at h₁
    obtain ⟨-, rfl⟩ := addThen_eq_ok.mp h₁
    cases h₂
    cases hs
  | afterEscapedBreak => exact absurd rfl hm

theorem feed_of_lineFeed (hd : d.Valid) (hb : d.BreakFree) {m n : Machine} {text : List Char}
    (hm : ∀ m', m.scan d limit text = .ok m' → m'.state ≠ .afterEscapedBreak)
    (h : m.feed d limit (text ++ ['\n']) = .ok n) (hs : n.state = .startRecord) :
    m.feed d limit text = .ok n := by
  obtain ⟨m₂, hscan, hend⟩ := feed_eq_ok.mp h
  rw [scan_append] at hscan
  cases htext : m.scan d limit text with
  | error cause => simp [htext] at hscan
  | ok m' =>
    rw [htext] at hscan
    obtain ⟨-, m₁, hfeed, hnil⟩ := scan_cons_eq_ok.mp hscan
    cases hnil
    exact feed_eq_ok.mpr ⟨m', htext, step_none_of_lineFeed hd hb (hm m' htext) hfeed hend hs⟩

end Machine

namespace Cursor

theorem completes_without_terminator (hd : d.Valid) (hb : d.BreakFree) {s : String}
    {items : List Item} {record : Record}
    (hs : ∀ m, Machine.scan d limit .empty s.toList = .ok m → m.state ≠ .afterEscapedBreak)
    (h : (fresh (.ok (s ++ "\n") :: items) d limit).Completes 1 record) :
    (fresh (.ok s :: items) d limit).Completes 1 record := by
  obtain ⟨m, hfeed, hstate, hfields⟩ := completes_one.mp h
  rw [String.toList_append] at hfeed
  exact completes_one.mpr ⟨m, Machine.feed_of_lineFeed hd hb hs hfeed hstate, hstate, hfields⟩

/-- A line that ends behind an escaped line break is read together with the next one. -/
theorem next_of_escaped_break {m : Machine} {s : String}
    (hs : Machine.scan d limit .empty s.toList = .ok m) (hm : m.state = .afterEscapedBreak)
    (t : String) (items : List Item) :
    (fresh (.ok s :: .ok t :: items) d limit).next =
      ⟨(fresh (.ok (s ++ t) :: items) d limit).next.result,
        (fresh (.ok (s ++ t) :: items) d limit).next.after.shift 1⟩ := by
  have hline : Machine.readLine d limit .empty s = .ok m := by
    exact Machine.feed_eq_ok.mpr ⟨m, hs, Machine.step_none_of_open (.inr hm)⟩
  have hjoin : Machine.readLine d limit .empty (s ++ t) = m.readLine d limit t := by
    have hpending : m.pendingEscape = false := by simp [Machine.pendingEscape, hm]
    rw [Machine.readLine_eq_feed rfl, Machine.readLine_eq_feed hpending, String.toList_append]
    exact Machine.feed_append_of_scan hs t.toList
  let joined := fresh (.ok (s ++ t) :: items) d limit
  have hsplit : (fresh (.ok s :: .ok t :: items) d limit).next =
      (fresh (.ok s :: .ok t :: items) d limit).pull m (0 + 1) (.ok t :: items) := by
    change pull _ .empty 0 (.ok s :: .ok t :: items) = _
    simp only [pull, fresh, hline, hm, reduceCtorEq, if_false]
  have hsource : (fresh (.ok s :: .ok t :: items) d limit).pull m 0 (.ok t :: items) =
      joined.pull m 0 (.ok t :: items) := pull_with joined _ 0 m 0 _
  have hnext : joined.pull m 0 (.ok t :: items) = joined.next := by
    change _ = pull joined .empty 0 (.ok (s ++ t) :: items)
    simp only [pull, joined, fresh, hjoin]
  rw [hsplit, pull_shift, hsource, hnext]

end Cursor

/-- Where a line feed behind a line would complete the record, the line completes it by itself,
unless it ends in an unquoted field with an escaped line break. A line that ends with such a break
goes on with the next line, as if the two were one. -/
theorem line_ends_without_terminator (hd : d.validate = .ok ()) (hb : d.BreakFree) (s : String)
    (items : List Item) :
    (∀ record, (∀ m, Machine.scan d limit .empty s.toList = .ok m → m.state ≠ .afterEscapedBreak) →
      (fresh (.ok (s ++ "\n") :: items) d limit).Completes 1 record →
      (fresh (.ok s :: items) d limit).Completes 1 record ∧
        ∀ k, (fresh (.ok s :: items) d limit).answer k =
            (fresh (.ok (s ++ "\n") :: items) d limit).answer k ∧
          ((fresh (.ok s :: items) d limit).advance (k + 1)).lineNum =
            ((fresh (.ok (s ++ "\n") :: items) d limit).advance (k + 1)).lineNum) ∧
    (∀ m c t, Machine.scan d limit .empty s.toList = .ok m → m.state = .afterEscapedBreak →
      s.toList.getLast? = some c → isBreak c = true →
        ∀ k, (fresh (.ok s :: .ok t :: items) d limit).answer k =
            (fresh (.ok (s ++ t) :: items) d limit).answer k ∧
          ((fresh (.ok s :: .ok t :: items) d limit).advance (k + 1)).lineNum =
            ((fresh (.ok (s ++ t) :: items) d limit).advance (k + 1)).lineNum + 1) := by
  constructor
  · intro record hs h
    have hcursor := Cursor.completes_without_terminator (Dialect.validate_eq_ok.mp hd) hb hs
      (completes_iff.mp h)
    have hnext : (Cursor.fresh (.ok s :: items) d limit).next =
        (Cursor.fresh (.ok (s ++ "\n") :: items) d limit).next :=
      hcursor.trans (completes_iff.mp h).symm
    refine ⟨completes_iff.mpr hcursor, fun k => ?_⟩
    simp only [answer_eq, toCursor_advance, toCursor_fresh]
    constructor
    · cases k with
      | zero => simp only [Cursor.answer, Cursor.advance, hnext]
      | succ k => simp only [Cursor.answer_succ, hnext]
    · simp only [Cursor.advance, hnext]
  · intro m c t hscan hstate _ _ k
    have hnext := Cursor.next_of_escaped_break hscan hstate t items
    simp only [answer_eq, toCursor_advance, toCursor_fresh]
    constructor
    · cases k with
      | zero => simp only [Cursor.answer, Cursor.advance, hnext]
      | succ k => simp only [Cursor.answer_succ, hnext, Cursor.answer_shift]
    · simp only [Cursor.advance, hnext, Cursor.advance_shift]
      rfl

theorem line_ends_without_terminator_backslash :
    let d : Dialect := { quoting := .none, escape := some '\\' }
    (fresh [.ok "a,b", .ok "c\n"] d 9).Completes 1 ["a", "b"] ∧
      ∀ k, (fresh [.ok "x\\\n", .ok "y\n"] d 9).answer k =
        (fresh [.ok "x\\\ny\n"] d 9).answer k := by
  intro d
  have hb : d.BreakFree := by decide
  constructor
  · have h := (@line_ends_without_terminator d 9 rfl hb "a,b" [.ok "c\n"]).1 ["a", "b"]
    exact (h (fun m hm => by cases hm; decide) rfl).1
  · intro k
    have h := (@line_ends_without_terminator d 9 rfl hb "x\\\n" []).2
    exact (h _ '\n' "y\n" rfl rfl rfl rfl k).1

/-- With a line feed behind it the line `x\` and its escaped break are a record. Without, the record
goes on with the next line. -/
theorem escaped_break_needs_terminator :
    let d : Dialect := { quoting := .none, escape := some '\\' }
    d.validate = .ok () ∧ d.BreakFree ∧
      (fresh [.ok ("x\\\n" ++ "\n"), .ok "y\n"] d 9).Completes 1 ["x\n"] ∧
      ¬ (fresh [.ok "x\\\n", .ok "y\n"] d 9).Completes 1 ["x\n"] ∧
      (fresh [.ok "x\\\n", .ok "y\n"] d 9).answer 0 = some (.ok ["x\ny"]) := by
  intro d
  refine ⟨rfl, by decide, rfl, ?_, rfl⟩
  intro h
  have hlines : 2 = 1 := congrArg (fun pull => pull.after.lineNum) h
  exact absurd hlines (by decide)

end Tabular.Reader
