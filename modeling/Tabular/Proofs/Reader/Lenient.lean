import Tabular.Proofs.Reader.Machine
import Tabular.Proofs.Reader.Requests

/-! # Strict readers and lenient ones

A dialect may refuse text behind a closing quote, an input that ends inside a record, and an
unquoted field that names no number. A reader of such a dialect and one that lets all of this pass
go through the same states, up to the mark that a field has to name a number. So they give the same
answers as long as nothing is refused.
-/
namespace Tabular

def Failure.isRejection : Failure → Bool
  | .delimiterExpected _ _ | .unexpectedEnd | .notNumeric _ => true
  | _ => false

/-- The dialect that lets pass what only the strictness of `d`, or its care for numbers, refuses. -/
def Dialect.lenient (d : Dialect) : Dialect :=
  { d with
    quoting := if d.quoting = .nonNumeric then .minimal else d.quoting
    strict := false }

namespace Dialect

variable (d : Dialect)

theorem lenient_quoting_eq_none : d.lenient.quoting = .none ↔ d.quoting = .none := by
  unfold lenient
  cases d.quoting <;> simp

theorem lenient_quoting_ne_nonNumeric : d.lenient.quoting ≠ .nonNumeric := by
  unfold lenient
  cases d.quoting <;> simp

theorem validate_lenient : d.lenient.validate = d.validate := by
  have hnone := d.lenient_quoting_eq_none
  have hfault : d.lenient.fault? = d.fault? := by
    unfold fault?
    simp only [ne_eq, hnone]
    rfl
  unfold validate
  rw [hfault]

theorem isQuote_lenient (c : Char) : d.lenient.isQuote c = d.isQuote c := by
  have hiff : d.lenient.isQuote c = true ↔ d.isQuote c = true := by
    simp only [isQuote, Bool.and_eq_true, bne_iff_ne, ne_eq, lenient_quoting_eq_none]
    rfl
  exact Bool.eq_iff_iff.mpr hiff

end Dialect

namespace Reader

variable {d : Dialect} {limit : Nat}

def rejects {α : Type} : Except Failure α → Bool
  | .error cause => cause.isRejection
  | .ok _ => false

namespace Action

/-- The dialects agree on what a character does, unless strictness refuses it. -/
theorem ofChar_lenient (d : Dialect) (c : Char) (s : State) :
    ofChar d c s = .refuse (.delimiterExpected d.delimiter (d.quote.getD '"')) ∨
      ofChar d.lenient c s = ofChar d c s := by
  have hquote := d.isQuote_lenient c
  have hescape : d.lenient.isEscape c = d.isEscape c := rfl
  cases s with
  | quoteInQuoted =>
    -- The one state in which strictness has a say, and there it comes last.
    simp only [ofChar, ofQuoteInQuoted, hquote]
    by_cases hdouble : (d.doubleQuote && d.isQuote c) = true
    · exact .inr (by simp [Dialect.lenient, hdouble])
    by_cases hdelim : c = d.delimiter
    · exact .inr (by simp [Dialect.lenient, hdelim])
    by_cases hbreak : isBreak c = true
    · exact .inr (by simp [Dialect.lenient, hdouble, hdelim, hbreak])
    by_cases hstrict : d.strict = true
    · exact .inl (by simp [hdouble, hdelim, hbreak, hstrict])
    · exact .inr (by simp [Dialect.lenient, hdouble, hdelim, hbreak, hstrict])
  | startRecord | startField =>
    right
    simp only [ofChar, ofFieldStart, hquote, hescape]
    rfl
  | inField | afterEscapedBreak => exact .inr (by simp only [ofChar, ofField, hescape]; rfl)
  | inQuoted => exact .inr (by simp only [ofChar, hquote, hescape])
  | escaped | escapedInQuoted | afterBreak => exact .inr rfl

end Action

namespace Machine

def unmarked (m : Machine) : Machine := { m with numeric := false }

theorem addThen_unmarked (m : Machine) (c : Char) (next : State) :
    m.unmarked.addThen limit c next = (m.addThen limit c next).map unmarked := by
  have hfield : m.unmarked.field = m.field := rfl
  rw [addThen_eq, addThen_eq, hfield]
  split <;> rfl

theorem close_unmarked {m : Machine} {next : State} (h : rejects (m.close next) = false) :
    m.unmarked.close next = (m.close next).map unmarked := by
  cases hclose : m.close next with
  | error cause =>
    -- Ending a field fails only where a number is missing.
    have hcause : cause.isRejection = true := by
      rw [close_eq] at hclose
      split at hclose <;> cases hclose
      rfl
    rw [hclose, rejects, hcause] at h
    cases h
  | ok n =>
    obtain ⟨-, rfl⟩ := close_eq_ok.mp hclose
    exact close_eq_ok.mpr ⟨fun hmark => Bool.noConfusion hmark, rfl⟩

theorem perform_lenient {a : Action} {m : Machine} (h : rejects (a.perform d limit m) = false) :
    a.perform d.lenient limit m.unmarked = (a.perform d limit m).map unmarked := by
  cases a with
  | move next => rfl
  | take c next => exact addThen_unmarked m c next
  | start c =>
    have hmark : ({ m.unmarked with
        numeric := m.unmarked.numeric || d.lenient.quoting == .nonNumeric } : Machine) =
        unmarked { m with numeric := m.numeric || d.quoting == .nonNumeric } := by
      simp [unmarked, d.lenient_quoting_ne_nonNumeric]
    exact (congrArg (addThen limit · c .inField) hmark).trans (addThen_unmarked _ c .inField)
  | close next => exact close_unmarked h
  | refuse cause => rfl

theorem step_lenient {m : Machine} {c? : Option Char} (h : rejects (m.step d limit c?) = false) :
    m.unmarked.step d.lenient limit c? = (m.step d limit c?).map unmarked := by
  cases c? with
  | none =>
    rw [step_none] at h ⊢
    rw [step_none]
    exact perform_lenient h
  | some c =>
    rw [step_some] at h ⊢
    rw [step_some]
    rcases Action.ofChar_lenient d c m.state with hrefuse | hsame
    · rw [hrefuse] at h
      cases h
    · have hstate : m.unmarked.state = m.state := rfl
      rw [hstate, hsame]
      exact perform_lenient h

theorem rejects_of_bind {x : Except Failure Machine} {f : Machine → Except Failure α}
    (h : rejects (x.bind f) = false) : rejects x = false := by
  cases x with
  | error cause => exact h
  | ok m => rfl

theorem feed_lenient {m : Machine} {text : List Char} (h : rejects (m.feed d limit text) = false) :
    m.unmarked.feed d.lenient limit text = (m.feed d limit text).map unmarked := by
  induction text generalizing m with
  | nil => exact step_lenient h
  | cons c text ih =>
    by_cases hnul : c = '\x00'
    · subst hnul
      rfl
    · rw [feed_cons m hnul] at h
      rw [feed_cons _ hnul, feed_cons m hnul, step_lenient (rejects_of_bind h)]
      cases hstep : m.step d limit (some c) with
      | error cause => rfl
      | ok m' =>
        rw [hstep] at h
        exact ih h

theorem resume_unmarked (m : Machine) :
    m.unmarked.resume limit = (m.resume limit).map unmarked := by
  cases hm : m.pendingEscape with
  | false => rw [resume_of_not_pending hm, resume_of_not_pending (m := m.unmarked) hm, Except.map]
  | true =>
    rcases pendingEscape_iff.mp hm with hs | hs
    · rw [resume_of_escaped hs, resume_of_escaped (m := m.unmarked) hs, addThen_unmarked]
    · rw [resume_of_escapedInQuoted hs, resume_of_escapedInQuoted (m := m.unmarked) hs,
        addThen_unmarked]

theorem readLine_lenient {m : Machine} {line : String}
    (h : rejects (m.readLine d limit line) = false) :
    m.unmarked.readLine d.lenient limit line = (m.readLine d limit line).map unmarked := by
  rw [readLine_eq_bind] at h ⊢
  rw [readLine_eq_bind, resume_unmarked]
  cases hresume : m.resume limit with
  | error cause => rfl
  | ok m' =>
    rw [hresume] at h
    exact feed_lenient h

theorem settleEscape_unmarked (m : Machine) :
    m.unmarked.settleEscape d.lenient limit = (m.settleEscape d limit).map unmarked := by
  cases hm : m.pendingEscape with
  | false =>
    rw [settleEscape_of_not_pending hm, settleEscape_of_not_pending (m := m.unmarked) hm,
      Except.map]
  | true =>
    cases he : d.escape with
    | none =>
      rw [settleEscape_of_none m he, settleEscape_of_none (d := d.lenient) m.unmarked he,
        Except.map]
    | some e =>
      rw [settleEscape_of_pending hm he,
        settleEscape_of_pending (d := d.lenient) (m := m.unmarked) hm he, addThen_unmarked]
      rfl

theorem ending_lenient {m : Machine} (h : rejects (m.ending d limit) = false) :
    m.unmarked.ending d.lenient limit = (m.ending d limit).map unmarked := by
  rw [ending] at h ⊢
  rw [ending, settleEscape_unmarked]
  cases hsettle : m.settleEscape d limit with
  | error cause => rfl
  | ok m' =>
    rw [hsettle] at h
    exact close_unmarked h

theorem finish_lenient {m : Machine} (h : rejects (m.finish d limit) = false) :
    m.unmarked.finish d.lenient limit = m.finish d limit := by
  cases hm : m.isOpen with
  | false => rw [finish_of_not_isOpen hm, finish_of_not_isOpen (m := m.unmarked) hm]
  | true =>
    have hstrict : d.strict = false := by
      rw [Bool.eq_false_iff]
      intro hs
      rw [finish_of_strict hm hs] at h
      cases h
    rw [finish_of_isOpen hm hstrict] at h ⊢
    rw [finish_of_isOpen (d := d.lenient) (m := m.unmarked) hm rfl]
    have hend : rejects (m.ending d limit) = false := by
      cases hend : m.ending d limit with
      | error cause =>
        rw [hend] at h
        exact h
      | ok n => rfl
    rw [ending_lenient hend]
    cases m.ending d limit <;> rfl

end Machine

theorem finish_lenient {m : Machine} (h : (finish d limit m).any rejects = false) :
    finish d.lenient limit m.unmarked = finish d limit m := by
  have hm : rejects (m.finish d limit) = false := by
    unfold finish at h
    rcases hf : m.finish d limit with cause | record?
    · rw [hf] at h
      exact h
    · rfl
  rw [finish, finish, Machine.finish_lenient hm]

namespace Cursor

def lenient (r : Cursor) : Cursor := { r with dialect := r.dialect.lenient }

theorem pull_lenient {r : Cursor} {m : Machine} {n : Nat} {items : List Item}
    (h : (r.pull m n items).result.any rejects = false) :
    r.lenient.pull m.unmarked n items =
      ⟨(r.pull m n items).result, (r.pull m n items).after.lenient⟩ := by
  induction items generalizing m n with
  | nil =>
    simp only [pull] at h ⊢
    exact congrArg (Pull.mk · _) (finish_lenient h)
  | cons item items ih =>
    cases item with
    | error cause => rfl
    | ok line =>
      simp only [pull] at h ⊢
      cases hline : m.readLine r.dialect r.limit line with
      | error cause =>
        have hread : rejects (m.readLine r.dialect r.limit line) = false := by
          rw [hline] at h ⊢
          exact h
        simp only [lenient, Machine.readLine_lenient hread, hline, Except.map]
      | ok m' =>
        have hread : rejects (m.readLine r.dialect r.limit line) = false := by
          rw [hline]
          rfl
        have hstate : m'.unmarked.state = m'.state := rfl
        rw [hline] at h
        simp only [lenient, Machine.readLine_lenient hread, hline, Except.map, hstate]
        by_cases hs : m'.state = .startRecord
        · simp only [hs, if_true]
          rfl
        · simp only [hs, if_false] at h ⊢
          exact ih h

theorem next_lenient {r : Cursor} (h : r.next.result.any rejects = false) :
    r.lenient.next = ⟨r.next.result, r.next.after.lenient⟩ := by
  unfold next at h ⊢
  have hend : r.lenient.exhausted = r.exhausted := rfl
  rw [hend]
  by_cases he : r.exhausted = true
  · simp only [he, if_true]
  · simp only [he] at h ⊢
    exact pull_lenient h

theorem advance_lenient {r : Cursor} {k : Nat} (h : ∀ j, j < k → (r.answer j).any rejects = false) :
    r.lenient.advance k = (r.advance k).lenient := by
  induction k generalizing r with
  | zero => rfl
  | succ k ih =>
    have hfirst : r.next.result.any rejects = false := h 0 (Nat.succ_pos k)
    have hlater : ∀ j, j < k → (r.next.after.answer j).any rejects = false := fun j hj =>
      h (j + 1) (Nat.succ_lt_succ hj)
    simp only [advance, next_lenient hfirst]
    exact ih hlater

end Cursor

/-- Strictness and the care for numbers only refuse, they never change what is read. As long as no
answer of a reader is a failure that only its strict dialect knows, a reader of the lenient dialect
gives the same answers, takes the same items and counts the same lines. -/
theorem strictness_only_rejects {source : List Item} {r : Reader}
    (h : open? source d limit = .ok r) :
    ∃ r', open? source d.lenient limit = .ok r' ∧
      ∀ k, (∀ j, j ≤ k → (r.answer j).any rejects = false) →
        r'.answer k = r.answer k ∧ (r'.advance (k + 1)).source = (r.advance (k + 1)).source ∧
          (r'.advance (k + 1)).lineNum = (r.advance (k + 1)).lineNum := by
  obtain ⟨hvalid, rfl⟩ := open?_eq_ok.mp h
  refine ⟨_, open?_eq_ok.mpr ⟨d.validate_lenient.trans hvalid, rfl⟩, ?_⟩
  intro k hk
  simp only [answer_eq, toCursor_advance, toCursor_fresh] at hk ⊢
  have hbefore : (Cursor.fresh source d.lenient limit).advance k =
      ((Cursor.fresh source d limit).advance k).lenient :=
    Cursor.advance_lenient fun j hj => hk j (Nat.le_of_lt hj)
  have hbehind : (Cursor.fresh source d.lenient limit).advance (k + 1) =
      ((Cursor.fresh source d limit).advance (k + 1)).lenient :=
    Cursor.advance_lenient fun j hj => hk j (Nat.le_of_lt_succ hj)
  have hanswer := Cursor.next_lenient (hk k (Nat.le_refl k))
  refine ⟨?_, by rw [hbehind]; rfl, by rw [hbehind]; rfl⟩
  simp only [Cursor.answer, hbefore, hanswer]

/-- A record, a failing source and a stray carriage return pass unchanged; the text behind the
closing quote is where the readers part. -/
theorem strictness_only_rejects_nonNumeric :
    let d : Dialect := { quoting := .nonNumeric, strict := true }
    let source : List Item := [.ok "1,\"a", .ok "b\"\n", .error (.device "read" "gone"), .ok "2\rx",
      .ok "\"c\"d\n"]
    let r := fresh source d 9
    (r.answer 0 = some (.ok ["1", "ab"]) ∧ r.answer 1 = some (.error (.device "read" "gone")) ∧
      r.answer 2 = some (.error .newlineInUnquoted) ∧
      r.answer 3 = some (.error (.delimiterExpected ',' '"'))) ∧
      ∃ r', open? source d.lenient 9 = .ok r' ∧ r'.answer 3 = some (.ok ["cd"]) ∧
        ∀ k, k ≤ 2 → r'.answer k = r.answer k ∧
          (r'.advance (k + 1)).lineNum = (r.advance (k + 1)).lineNum := by
  intro d source r
  have hpass : ∀ j, j ≤ 2 → (r.answer j).any rejects = false := by decide
  have hopen : open? source d 9 = .ok r := rfl
  obtain ⟨r', hr', hsame⟩ := strictness_only_rejects hopen
  refine ⟨?_, r', hr', ?_, ?_⟩
  · subst r source d
    exact ⟨rfl, rfl, rfl, rfl⟩
  · obtain ⟨-, rfl⟩ := open?_eq_ok.mp hr'
    subst r source d
    exact rfl
  · intro k hk
    obtain ⟨hanswer, -, hlines⟩ := hsame k fun j hj => hpass j (Nat.le_trans hj hk)
    exact ⟨hanswer, hlines⟩

end Reader

end Tabular
