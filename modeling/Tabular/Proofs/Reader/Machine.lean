import Tabular.Proofs.Failure
import Tabular.Reader.Machine

/-! # Control and data of the record machine

What a character does depends on the dialect and on the state of the machine only: it moves the
machine, joins the open field, ends it, or is refused. The contents of the fields and the limit on
their length come in when that action is performed.

Most of what follows is about operations that succeed, and what a failure leaves in the machine does
not matter there. So each operation also has a form that forgets it.
-/
namespace Tabular

namespace Reader

namespace Machine

abbrev of (state : State) (fields : Array String) (field : Array Char) (numeric : Bool) : Machine :=
  { state := state, fields := fields, field := field, length := field.size, numeric := numeric }

variable (d : Dialect) (limit : Nat) (m : Machine)

def addThen (c : Char) (next : State) : Except Failure Machine :=
  (m.pushThen limit c next).toExcept

def close (next : State) : Except Failure Machine := (m.saveThen next).toExcept

def step (c? : Option Char) : Except Failure Machine := (m.receive d limit c?).toExcept

def resume : Except Failure Machine := (m.escapeBreak limit).toExcept

def feed (text : List Char) : Except Failure Machine := (m.receiveAll d limit text).toExcept

def readLine (line : String) : Except Failure Machine := (m.receiveLine d limit line).toExcept

def settleEscape : Except Failure Machine := (m.pushEscape d limit).toExcept

def finish : Except Failure (Option Record) := (m.conclude d limit).result

end Machine

def State.IsStart (s : State) : Prop := s = .startRecord ∨ s = .startField

def State.IsPlain (s : State) : Prop := s = .inField ∨ s = .afterEscapedBreak

inductive Action where
  | move (next : State)
  | take (c : Char) (next : State)
  | start (c : Char)
  | close (next : State)
  | refuse (cause : Failure)
  deriving DecidableEq, Repr

namespace Action

def ofFieldStart (d : Dialect) (c : Char) : Action :=
  if d.isQuote c then .move .inQuoted
  else if d.isEscape c then .move .escaped
  else if c == ' ' && d.skipInitialSpace then .move .startField
  else if c == d.delimiter then .close .startField
  else .start c

/-- The action of a character inside an unquoted field, which a plain one leaves in state `s`. -/
def ofField (d : Dialect) (s : State) (c : Char) : Action :=
  if isBreak c then .close .afterBreak
  else if d.isEscape c then .move .escaped
  else if c == d.delimiter then .close .startField
  else .take c s

def ofQuoteInQuoted (d : Dialect) (c : Char) : Action :=
  if d.doubleQuote && d.isQuote c then .take c .inQuoted
  else if c == d.delimiter then .close .startField
  else if isBreak c then .close .afterBreak
  else if d.strict then .refuse (.delimiterExpected d.delimiter (d.quote.getD '"'))
  else .take c .inField

def ofLineEnd : State → Action
  | .startField | .inField | .quoteInQuoted => .close .startRecord
  | .startRecord | .afterBreak => .move .startRecord
  | .escaped => .move .escaped
  | .inQuoted => .move .inQuoted
  | .escapedInQuoted => .move .escapedInQuoted
  | .afterEscapedBreak => .move .afterEscapedBreak

def ofChar (d : Dialect) (c : Char) : State → Action
  | .startRecord => if isBreak c then .move .afterBreak else ofFieldStart d c
  | .startField => if isBreak c then .close .afterBreak else ofFieldStart d c
  | .escaped => .take c (if isBreak c then .afterEscapedBreak else .inField)
  | .inField => ofField d .inField c
  | .afterEscapedBreak => ofField d .afterEscapedBreak c
  | .inQuoted =>
    if d.isEscape c then .move .escapedInQuoted
    else if d.isQuote c then .move .quoteInQuoted
    else .take c .inQuoted
  | .escapedInQuoted => .take c .inQuoted
  | .quoteInQuoted => ofQuoteInQuoted d c
  | .afterBreak => if isBreak c then .move .afterBreak else .refuse .newlineInUnquoted

/-- What a character may do in each state, and when. -/
inductive Acts (d : Dialect) (c : Char) : State → Action → Prop where
  | leadingBreak : isBreak c = true → Acts d c .startRecord (.move .afterBreak)
  | endEmptyField : isBreak c = true → Acts d c .startField (.close .afterBreak)
  | openQuotes {s : State} : s.IsStart → d.isQuote c = true → Acts d c s (.move .inQuoted)
  | escapeFirst {s : State} : s.IsStart → isBreak c = false → d.isEscape c = true →
      Acts d c s (.move .escaped)
  | skipSpace {s : State} : s.IsStart → c = ' ' → d.skipInitialSpace = true →
      Acts d c s (.move .startField)
  | delimitEmptyField {s : State} : s.IsStart → c = d.delimiter → Acts d c s (.close .startField)
  | startField {s : State} : s.IsStart → Acts d c s (.start c)
  | escapedBreak : isBreak c = true → Acts d c .escaped (.take c .afterEscapedBreak)
  | escapedChar : isBreak c = false → Acts d c .escaped (.take c .inField)
  | endField {s : State} : s.IsPlain → isBreak c = true → Acts d c s (.close .afterBreak)
  | escapeNext {s : State} : s.IsPlain → isBreak c = false → d.isEscape c = true →
      Acts d c s (.move .escaped)
  | delimitField {s : State} : s.IsPlain → c = d.delimiter → Acts d c s (.close .startField)
  | joinField {s : State} : s.IsPlain → Acts d c s (.take c s)
  | escapeInQuotes : d.isEscape c = true → Acts d c .inQuoted (.move .escapedInQuoted)
  | quoteInQuotes : d.isQuote c = true → Acts d c .inQuoted (.move .quoteInQuoted)
  | joinQuotes : Acts d c .inQuoted (.take c .inQuoted)
  | escapedInQuotes : Acts d c .escapedInQuoted (.take c .inQuoted)
  | doubledQuote : d.isQuote c = true → Acts d c .quoteInQuoted (.take c .inQuoted)
  | delimitQuotes : c = d.delimiter → Acts d c .quoteInQuoted (.close .startField)
  | endQuotes : isBreak c = true → Acts d c .quoteInQuoted (.close .afterBreak)
  | refuseText : Acts d c .quoteInQuoted
      (.refuse (.delimiterExpected d.delimiter (d.quote.getD '"')))
  | joinBehindQuotes : Acts d c .quoteInQuoted (.take c .inField)
  | furtherBreak : isBreak c = true → Acts d c .afterBreak (.move .afterBreak)
  | refuseBreak : Acts d c .afterBreak (.refuse .newlineInUnquoted)

theorem acts_ofFieldStart {d : Dialect} {c : Char} {s : State} (hs : s.IsStart)
    (hc : isBreak c = false) : Acts d c s (ofFieldStart d c) := by
  simp only [ofFieldStart, Bool.and_eq_true, beq_iff_eq]
  split
  · exact .openQuotes hs ‹_›
  split
  · exact .escapeFirst hs hc ‹_›
  split
  · rename_i hspace
    exact .skipSpace hs hspace.1 hspace.2
  split
  · exact .delimitEmptyField hs ‹_›
  · exact .startField hs

theorem acts_ofField {d : Dialect} {c : Char} {s : State} (hs : s.IsPlain) :
    Acts d c s (ofField d s c) := by
  simp only [ofField, beq_iff_eq]
  split
  · exact .endField hs ‹_›
  rename_i hc
  split
  · exact .escapeNext hs (Bool.eq_false_iff.mpr hc) ‹_›
  split
  · exact .delimitField hs ‹_›
  · exact .joinField hs

theorem acts_ofQuoteInQuoted (d : Dialect) (c : Char) :
    Acts d c .quoteInQuoted (ofQuoteInQuoted d c) := by
  simp only [ofQuoteInQuoted, Bool.and_eq_true, beq_iff_eq]
  split
  · rename_i hdouble
    exact .doubledQuote hdouble.2
  split
  · exact .delimitQuotes ‹_›
  split
  · exact .endQuotes ‹_›
  split
  · exact .refuseText
  · exact .joinBehindQuotes

theorem acts_ofChar (d : Dialect) (c : Char) (s : State) : Acts d c s (ofChar d c s) := by
  cases s with
  | startRecord =>
    simp only [ofChar]
    split
    · exact .leadingBreak ‹_›
    · exact acts_ofFieldStart (.inl rfl) (Bool.eq_false_iff.mpr ‹_›)
  | startField =>
    simp only [ofChar]
    split
    · exact .endEmptyField ‹_›
    · exact acts_ofFieldStart (.inr rfl) (Bool.eq_false_iff.mpr ‹_›)
  | escaped =>
    simp only [ofChar]
    split
    · exact .escapedBreak ‹_›
    · exact .escapedChar (Bool.eq_false_iff.mpr ‹_›)
  | inField => exact acts_ofField (.inl rfl)
  | afterEscapedBreak => exact acts_ofField (.inr rfl)
  | inQuoted =>
    simp only [ofChar]
    split
    · exact .escapeInQuotes ‹_›
    split
    · exact .quoteInQuotes ‹_›
    · exact .joinQuotes
  | escapedInQuoted => exact .escapedInQuotes
  | quoteInQuoted => exact acts_ofQuoteInQuoted d c
  | afterBreak =>
    simp only [ofChar]
    split
    · exact .furtherBreak ‹_›
    · exact .refuseBreak

theorem Acts.eq_of_take {d : Dialect} {c b : Char} {s next : State}
    (h : Acts d c s (.take b next)) : b = c := by
  cases h <;> rfl

theorem Acts.eq_of_start {d : Dialect} {c b : Char} {s : State} (h : Acts d c s (.start b)) :
    b = c := by
  cases h
  rfl

def next? : Action → Option State
  | .move s | .take _ s | .close s => some s
  | .start _ => some .inField
  | .refuse _ => none

def perform (d : Dialect) (limit : Nat) (m : Machine) : Action → Except Failure Machine
  | .move next => .ok (m.goto next)
  | .take c next => m.addThen limit c next
  | .start c =>
    Machine.addThen limit { m with numeric := m.numeric || d.quoting == .nonNumeric } c .inField
  | .close next => m.close next
  | .refuse cause => .error cause

end Action

namespace Machine

variable {d : Dialect} {limit : Nat}

@[simp] theorem goto_state (m : Machine) : m.goto m.state = m := rfl

@[simp] theorem state_goto (m : Machine) (s : State) : (m.goto s).state = s := rfl

@[simp] theorem fields_goto (m : Machine) (s : State) : (m.goto s).fields = m.fields := rfl

@[simp] theorem field_goto (m : Machine) (s : State) : (m.goto s).field = m.field := rfl

@[simp] theorem numeric_goto (m : Machine) (s : State) : (m.goto s).numeric = m.numeric := rfl

/-- The machine is given by all but the length of the open field. -/
theorem eq_of (m : Machine) : m = of m.state m.fields m.field m.numeric := by
  rcases m with ⟨state, fields, field, length, numeric, rfl⟩
  rfl

theorem extend_goto (m : Machine) (c : Char) (next : State) :
    (m.extend c).goto next = of next m.fields (m.field.push c) m.numeric :=
  eq_of _

theorem push_eq (m : Machine) (c : Char) :
    m.push limit c =
      if m.field.size < limit then .done () (m.extend c) else .fail (.fieldLimit limit) m := by
  rw [push, m.length_eq]

theorem addThen_eq (m : Machine) (c : Char) (next : State) :
    m.addThen limit c next =
      if m.field.size < limit then .ok (of next m.fields (m.field.push c) m.numeric)
      else .error (.fieldLimit limit) := by
  rw [addThen, pushThen, push_eq, ← extend_goto]
  split <;> rfl

theorem toExcept_push (m : Machine) (c : Char) :
    (m.push limit c).toExcept = m.addThen limit c m.state := by
  rw [addThen_eq, push_eq, ← extend_goto]
  split <;> rfl

theorem addThen_eq_ok {m n : Machine} {c : Char} {next : State} :
    m.addThen limit c next = .ok n ↔
      m.field.size < limit ∧ n = of next m.fields (m.field.push c) m.numeric := by
  rw [addThen_eq]
  by_cases h : m.field.size < limit
  · simp only [h, if_true, Except.ok.injEq, true_and]
    exact eq_comm
  · simp [h]

theorem close_eq (m : Machine) (next : State) :
    m.close next =
      if m.numeric && !Decimal.isNumber (String.ofList m.field.toList) then
        .error (.notNumeric (String.ofList m.field.toList))
      else .ok (of next (m.fields.push (String.ofList m.field.toList)) #[] false) := by
  rw [close, saveThen, save]
  dsimp only
  split <;> rfl

theorem toExcept_save (m : Machine) : m.save.toExcept = m.close m.state := by
  rw [close_eq, save]
  dsimp only
  split <;> rfl

theorem close_eq_ok {m n : Machine} {next : State} :
    m.close next = .ok n ↔
      (m.numeric = true → Decimal.isNumber (String.ofList m.field.toList) = true) ∧
        n = of next (m.fields.push (String.ofList m.field.toList)) #[] false := by
  rw [close_eq]
  split
  · simp_all
  · simp_all only [Except.ok.injEq, Bool.and_eq_true, Bool.not_eq_true', not_and,
      Bool.not_eq_false, implies_true, true_and]
    exact eq_comm

theorem addThen_goto (m : Machine) (s : State) (c : Char) (next : State) :
    (m.goto s).addThen limit c next = m.addThen limit c next := by
  rw [addThen_eq, addThen_eq]
  rfl

theorem close_goto (m : Machine) (s next : State) : (m.goto s).close next = m.close next := by
  rw [close_eq, close_eq]
  rfl

theorem perform_goto (a : Action) (m : Machine) (s : State) :
    a.perform d limit (m.goto s) = a.perform d limit m := by
  cases a with
  | move next => rfl
  | take c next => exact addThen_goto m s c next
  | start c => exact addThen_goto { m with numeric := _ } s c .inField
  | close next => exact close_goto m s next
  | refuse cause => rfl

theorem startField_eq_perform {m : Machine} (hm : m.state = .startField) {c : Char}
    (hc : isBreak c = false) :
    (m.startField d limit (some c)).toExcept = (Action.ofFieldStart d c).perform d limit m := by
  simp only [startField, Action.ofFieldStart, hc, Bool.false_eq_true, if_false]
  repeat' split
  · rfl
  · rfl
  · rw [← hm]
    rfl
  · rw [toExcept_save, hm]
    rfl
  · rfl

theorem inField_eq_perform (m : Machine) (c : Char) :
    (m.inField d limit (some c)).toExcept = (Action.ofField d m.state c).perform d limit m := by
  simp only [inField, Action.ofField]
  repeat' split
  · rfl
  · rfl
  · rfl
  · exact toExcept_push m c

theorem quoteInQuoted_eq_perform (m : Machine) (c : Char) :
    (m.quoteInQuoted d limit (some c)).toExcept =
      (Action.ofQuoteInQuoted d c).perform d limit m := by
  simp only [quoteInQuoted, Action.ofQuoteInQuoted]
  repeat' split
  all_goals rfl

theorem step_none (m : Machine) :
    m.step d limit none = (Action.ofLineEnd m.state).perform d limit m := by
  rcases m with ⟨state, fields, field, length, numeric, hlength⟩
  cases state <;> rfl

theorem step_some (m : Machine) (c : Char) :
    m.step d limit (some c) = (Action.ofChar d c m.state).perform d limit m := by
  cases hs : m.state with
  | startRecord =>
    simp only [step, receive, hs, Action.ofChar]
    cases hc : isBreak c with
    | true => rfl
    | false => exact (startField_eq_perform rfl hc).trans (perform_goto _ m _)
  | startField =>
    simp only [step, receive, hs, Action.ofChar]
    cases hc : isBreak c with
    | true =>
      rw [startField, hc]
      rfl
    | false => exact startField_eq_perform hs hc
  | escaped => simp only [step, receive, hs, Action.ofChar, Action.perform, addThen]
  | inField =>
    simp only [step, receive, hs, Action.ofChar]
    rw [← hs]
    exact inField_eq_perform m c
  | inQuoted =>
    simp only [step, receive, hs, Action.ofChar]
    repeat' split
    · rfl
    · rfl
    · rw [toExcept_push, hs]
      rfl
  | escapedInQuoted => simp only [step, receive, hs, Action.ofChar, Action.perform, addThen]
  | quoteInQuoted =>
    simp only [step, receive, hs, Action.ofChar]
    exact quoteInQuoted_eq_perform m c
  | afterBreak =>
    simp only [step, receive, hs, Action.ofChar]
    split
    · rw [← goto_state m, hs]
      rfl
    · rfl
  | afterEscapedBreak =>
    simp only [step, receive, hs, Action.ofChar]
    rw [← hs]
    exact inField_eq_perform m c

theorem next?_of_perform {a : Action} {m n : Machine} (h : a.perform d limit m = .ok n) :
    a.next? = some n.state := by
  cases a with
  | move next =>
    cases h
    rfl
  | take c next | start c =>
    obtain ⟨-, rfl⟩ := addThen_eq_ok.mp h
    rfl
  | close next =>
    obtain ⟨-, rfl⟩ := close_eq_ok.mp h
    rfl
  | refuse cause => cases h

theorem acts_of_step {m n : Machine} {c : Char} (h : m.step d limit (some c) = .ok n) :
    ∃ a, Action.Acts d c m.state a ∧ a.next? = some n.state := by
  rw [step_some] at h
  exact ⟨_, Action.acts_ofChar d c m.state, next?_of_perform h⟩

/-- A character that is not refused moves the machine, joins the open field, or ends it. -/
theorem step_some_cases {m n : Machine} {c : Char} (h : m.step d limit (some c) = .ok n) :
    (∃ next, Action.Acts d c m.state (.move next) ∧ n = m.goto next) ∨
      (∃ next, Action.Acts d c m.state (.take c next) ∧ m.addThen limit c next = .ok n) ∨
      (Action.Acts d c m.state (.start c) ∧
        addThen limit { m with numeric := m.numeric || d.quoting == .nonNumeric } c .inField =
          .ok n) ∨
      ∃ next, Action.Acts d c m.state (.close next) ∧ m.close next = .ok n := by
  have hacts := Action.acts_ofChar d c m.state
  rw [step_some] at h
  cases ha : Action.ofChar d c m.state with
  | move next =>
    rw [ha] at h hacts
    cases h
    exact .inl ⟨next, hacts, rfl⟩
  | take b next =>
    rw [ha] at h hacts
    obtain rfl := hacts.eq_of_take
    exact .inr (.inl ⟨next, hacts, h⟩)
  | start b =>
    rw [ha] at h hacts
    obtain rfl := hacts.eq_of_start
    exact .inr (.inr (.inl ⟨hacts, h⟩))
  | close next =>
    rw [ha] at h hacts
    exact .inr (.inr (.inr ⟨next, hacts, h⟩))
  | refuse cause =>
    rw [ha] at h
    cases h

/-- The end of a line ends the field and with it the record, or finds the record complete, or finds
it open and leaves the machine as it is. -/
theorem step_none_cases {m n : Machine} (h : m.step d limit none = .ok n) :
    m.close .startRecord = .ok n ∨
      (m.state = .startRecord ∨ m.state = .afterBreak) ∧ n = m.goto .startRecord ∨
      n = m ∧ (m.pendingEscape = true ∨ m.state = .inQuoted ∨ m.state = .afterEscapedBreak) := by
  rw [step_none] at h
  cases hs : m.state with
  | startField | inField | quoteInQuoted =>
    rw [hs] at h
    exact .inl h
  | startRecord | afterBreak =>
    rw [hs] at h
    cases h
    exact .inr (.inl ⟨by simp, rfl⟩)
  | escaped | inQuoted | escapedInQuoted | afterEscapedBreak =>
    rw [hs] at h
    cases h
    exact .inr (.inr ⟨by rw [← hs, goto_state], by simp [pendingEscape, hs]⟩)

theorem state_or_eq_of_step_none {m n : Machine} (h : m.step d limit none = .ok n) :
    n.state = .startRecord ∨
      n = m ∧ (m.pendingEscape = true ∨ m.state = .inQuoted ∨ m.state = .afterEscapedBreak) := by
  rcases step_none_cases h with hclose | ⟨-, rfl⟩ | hopen
  · obtain ⟨-, rfl⟩ := close_eq_ok.mp hclose
    exact .inl rfl
  · exact .inl rfl
  · exact .inr hopen

theorem step_none_of_open {m : Machine} (h : m.state = .inQuoted ∨ m.state = .afterEscapedBreak) :
    m.step d limit none = .ok m := by
  rw [step_none, ← goto_state m]
  rcases h with h | h <;> rw [h] <;> rfl

theorem resume_of_escaped {m : Machine} (h : m.state = .escaped) :
    m.resume limit = m.addThen limit '\n' .inField := by
  rw [resume, escapeBreak, h]
  rfl

theorem resume_of_escapedInQuoted {m : Machine} (h : m.state = .escapedInQuoted) :
    m.resume limit = m.addThen limit '\n' .inQuoted := by
  rw [resume, escapeBreak, h]
  rfl

theorem resume_of_not_pending {m : Machine} (h : m.pendingEscape = false) :
    m.resume limit = .ok m := by
  cases hs : m.state <;> simp_all [pendingEscape, resume, escapeBreak]

theorem pendingEscape_iff {m : Machine} :
    m.pendingEscape = true ↔ m.state = .escaped ∨ m.state = .escapedInQuoted := by
  simp [pendingEscape]

/-- A line starts with the break in front of it if an escape was pending, and else as it stands. -/
theorem resume_cases {m n : Machine} (h : m.resume limit = .ok n) :
    n = m ∨ m.state = .escaped ∧ m.addThen limit '\n' .inField = .ok n ∨
      m.state = .escapedInQuoted ∧ m.addThen limit '\n' .inQuoted = .ok n := by
  cases hm : m.pendingEscape with
  | false =>
    rw [resume_of_not_pending hm] at h
    cases h
    exact .inl rfl
  | true =>
    rcases pendingEscape_iff.mp hm with hs | hs
    · exact .inr (.inl ⟨hs, (resume_of_escaped hs).symm.trans h⟩)
    · exact .inr (.inr ⟨hs, (resume_of_escapedInQuoted hs).symm.trans h⟩)

theorem resume_eq_or (m : Machine) :
    (∀ limit, m.resume limit = .ok m) ∨
      ∃ next, ∀ limit, m.resume limit = m.addThen limit '\n' next := by
  cases hm : m.pendingEscape with
  | false => exact .inl fun _ => resume_of_not_pending hm
  | true =>
    rcases pendingEscape_iff.mp hm with hs | hs
    · exact .inr ⟨_, fun _ => resume_of_escaped hs⟩
    · exact .inr ⟨_, fun _ => resume_of_escapedInQuoted hs⟩

theorem readLine_eq_bind (m : Machine) (line : String) :
    m.readLine d limit line = (m.resume limit).bind (feed d limit · line.toList) :=
  Outcome.toExcept_andThen _ _

theorem readLine_eq_ok {m n : Machine} {line : String} :
    m.readLine d limit line = .ok n ↔
      ∃ m', m.resume limit = .ok m' ∧ m'.feed d limit line.toList = .ok n := by
  rw [readLine_eq_bind]
  cases m.resume limit <;> simp [Except.bind]

theorem readLine_eq_feed {m : Machine} (h : m.pendingEscape = false) (line : String) :
    m.readLine d limit line = m.feed d limit line.toList := by
  rw [readLine_eq_bind, resume_of_not_pending h]
  rfl

theorem feed_nil (m : Machine) : m.feed d limit [] = m.step d limit none := rfl

theorem feed_nul (m : Machine) (rest : List Char) :
    m.feed d limit ('\x00' :: rest) = .error .nulInLine := rfl

theorem feed_cons (m : Machine) {c : Char} (hc : c ≠ '\x00') (rest : List Char) :
    m.feed d limit (c :: rest) = (m.step d limit (some c)).bind (feed d limit · rest) := by
  rw [feed, receiveAll, if_neg (by simpa using hc)]
  exact Outcome.toExcept_andThen _ _

theorem feed_cons_of_step {m n : Machine} {c : Char} (hc : c ≠ '\x00')
    (h : m.step d limit (some c) = .ok n) (rest : List Char) :
    m.feed d limit (c :: rest) = n.feed d limit rest := by
  rw [feed_cons m hc, h]
  rfl

def scan (d : Dialect) (limit : Nat) : Machine → List Char → Except Failure Machine
  | m, [] => .ok m
  | m, c :: rest =>
    if c == '\x00' then .error .nulInLine
    else
      match m.step d limit (some c) with
      | .ok m => scan d limit m rest
      | .error cause => .error cause

theorem scan_cons_of_step {m n : Machine} {c : Char} (hc : c ≠ '\x00')
    (h : m.step d limit (some c) = .ok n) (rest : List Char) :
    m.scan d limit (c :: rest) = n.scan d limit rest := by
  simp [scan, hc, h]

theorem scan_cons_eq_ok {m n : Machine} {c : Char} {rest : List Char} :
    m.scan d limit (c :: rest) = .ok n ↔
      c ≠ '\x00' ∧ ∃ m', m.step d limit (some c) = .ok m' ∧ m'.scan d limit rest = .ok n := by
  by_cases hc : c = '\x00'
  · simp [scan, hc]
  · cases h : m.step d limit (some c) <;> simp [scan, hc, h]

theorem feed_eq_ok {m n : Machine} {text : List Char} :
    m.feed d limit text = .ok n ↔
      ∃ m', m.scan d limit text = .ok m' ∧ m'.step d limit none = .ok n := by
  induction text generalizing m with
  | nil => simp [feed_nil, scan]
  | cons c rest ih =>
    by_cases hc : c = '\x00'
    · subst hc
      simp [feed_nul, scan]
    · rw [feed_cons m hc]
      cases h : m.step d limit (some c) <;> simp [Except.bind, scan, hc, h, ih]

theorem scan_append (m : Machine) (first second : List Char) :
    m.scan d limit (first ++ second) =
      match m.scan d limit first with
      | .ok m => m.scan d limit second
      | .error cause => .error cause := by
  induction first generalizing m with
  | nil => rfl
  | cons c first ih =>
    simp only [List.cons_append, scan]
    repeat' split
    all_goals simp_all

theorem scan_append_of_scan {m n : Machine} {first : List Char} (h : m.scan d limit first = .ok n)
    (second : List Char) : m.scan d limit (first ++ second) = n.scan d limit second := by
  rw [scan_append, h]

theorem feed_append_of_scan {m n : Machine} {first : List Char} (h : m.scan d limit first = .ok n)
    (second : List Char) : m.feed d limit (first ++ second) = n.feed d limit second := by
  induction first generalizing m with
  | nil =>
    cases h
    rfl
  | cons c first ih =>
    obtain ⟨hc, m', hstep, hrest⟩ := scan_cons_eq_ok.mp h
    rw [List.cons_append, feed_cons_of_step hc hstep]
    exact ih hrest

theorem settleEscape_of_not_pending {m : Machine} (h : m.pendingEscape = false) :
    m.settleEscape d limit = .ok m := by
  simp [settleEscape, pushEscape, h]

theorem settleEscape_of_none (m : Machine) (h : d.escape = none) :
    m.settleEscape d limit = .ok m := by
  simp [settleEscape, pushEscape, h]

theorem settleEscape_of_pending {m : Machine} {e : Char} (h : m.pendingEscape = true)
    (he : d.escape = some e) : m.settleEscape d limit = m.addThen limit e m.state := by
  rw [settleEscape, pushEscape, h, he]
  exact toExcept_push m e

theorem settleEscape_eq_or (d : Dialect) (m : Machine) :
    (∀ limit, m.settleEscape d limit = .ok m) ∨
      m.pendingEscape = true ∧ ∃ e, d.escape = some e ∧
        ∀ limit, m.settleEscape d limit = m.addThen limit e m.state := by
  cases hm : m.pendingEscape with
  | false => exact .inl fun _ => settleEscape_of_not_pending hm
  | true =>
    cases he : d.escape with
    | none => exact .inl fun _ => settleEscape_of_none m he
    | some e => exact .inr ⟨rfl, e, rfl, fun _ => settleEscape_of_pending hm he⟩

theorem settleEscape_cases {m n : Machine} (h : m.settleEscape d limit = .ok n) :
    n = m ∨ m.pendingEscape = true ∧
      ∃ e, d.escape = some e ∧ m.addThen limit e m.state = .ok n := by
  rcases settleEscape_eq_or d m with hsame | ⟨hm, e, he, hadd⟩
  · rw [hsame] at h
    cases h
    exact .inl rfl
  · exact .inr ⟨hm, e, he, (hadd limit).symm.trans h⟩

theorem isOpen_eq (m : Machine) :
    m.isOpen = (m.pendingEscape || !m.field.isEmpty || m.state == .inQuoted) := by
  rw [isOpen, m.length_eq]
  rfl

/-- The machine with a pending escape taken as it is and the open field ended. -/
def ending (d : Dialect) (limit : Nat) (m : Machine) : Except Failure Machine :=
  (m.settleEscape d limit).bind (·.close .startRecord)

theorem finish_of_not_isOpen {m : Machine} (hm : m.isOpen = false) :
    m.finish d limit = .ok none := by
  simp [finish, conclude, hm, Outcome.done]

theorem finish_of_strict {m : Machine} (hm : m.isOpen = true) (hd : d.strict = true) :
    m.finish d limit = .error .unexpectedEnd := by
  simp [finish, conclude, hm, hd, Outcome.fail]

theorem finish_of_isOpen {m : Machine} (hm : m.isOpen = true) (hd : d.strict = false) :
    m.finish d limit = (m.ending d limit).map fun m => some m.fields.toList := by
  simp only [finish, conclude, hm, hd, Bool.not_true, Bool.false_eq_true, if_false,
    Outcome.result_andThen]
  rw [ending, settleEscape]
  cases (m.pushEscape d limit).toExcept with
  | error cause => rfl
  | ok m' =>
    cases hn : m'.numeric && !Decimal.isNumber (String.ofList m'.field.toList) <;>
      simp only [Except.bind, toExcept_save, close_eq, hn] <;> rfl

theorem ending_eq_ok {m n : Machine} (h : m.ending d limit = .ok n) :
    ∃ m', (m' = m ∨ m.pendingEscape = true ∧
        ∃ e, d.escape = some e ∧ m.addThen limit e m.state = .ok m') ∧
      m'.close .startRecord = .ok n := by
  rw [ending] at h
  cases hsettle : m.settleEscape d limit with
  | error cause =>
    rw [hsettle] at h
    cases h
  | ok m' =>
    rw [hsettle] at h
    exact ⟨m', settleEscape_cases hsettle, h⟩

end Machine

end Reader

end Tabular
