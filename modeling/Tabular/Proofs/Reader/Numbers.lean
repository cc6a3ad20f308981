import Tabular.Proofs.Dialect
import Tabular.Proofs.Reader.Ending
import Tabular.Proofs.Reader.Restart

/-! # Numbers without quotes

A dialect may ask that every unquoted field names a number. The field is marked for the check by the
character that begins it, and an escape that begins it sets no mark. So a source without quotes
gives numbers and empty fields only, unless an escape stands where a field starts.
-/
namespace Tabular

namespace Dialect

/-- Whether a character takes the meaning off the next one outside quotes. Line breaks and NUL are
dealt with before escapes are. -/
def bareEscape (d : Dialect) (c : Char) : Bool := d.isEscape c && !isBreak c && c != '\x00'

def startsField (d : Dialect) (c : Char) : Bool :=
  c == d.delimiter || c == ' ' && d.skipInitialSpace

/-- No escape of a text stands where a field may `start`: in front, behind a delimiter, or behind a
blank that may be skipped. -/
def guards (d : Dialect) (start : Bool) : List Char → Bool
  | [] => true
  | c :: rest => !(start && d.bareEscape c) && d.guards (d.startsField c) rest

theorem guards_of_none (d : Dialect) (h : ∀ c, d.bareEscape c = false) (start : Bool)
    (text : List Char) : d.guards start text = true := by
  induction text generalizing start with
  | nil => rfl
  | cons c text ih => simp [guards, h c, ih]

end Dialect

def NamesNumber (text : String) : Prop := text = "" ∨ Decimal.isNumber text = true

namespace Reader

variable {d : Dialect} {limit : Nat}

def State.isBare : State → Bool
  | .inField | .escaped | .afterEscapedBreak => true
  | _ => false

namespace Action

variable {c b : Char} {s next : State}

theorem isIdle_of_idle_move (hs : s.isIdle = true) (hquote : d.isQuote c = false)
    (hnul : c ≠ '\x00') (hescape : s.IsStart → d.bareEscape c = false)
    (h : Acts d c s (.move next)) : next.isIdle = true := by
  cases h with
  | leadingBreak | furtherBreak | skipSpace => rfl
  | openQuotes _ hq => cases hq.symm.trans hquote
  | escapeFirst hstart hbreak he =>
    have hbare : d.bareEscape c = true := by simp [Dialect.bareEscape, hbreak, he, hnul]
    cases hbare.symm.trans (hescape hstart)
  | escapeNext hplain => cases hs.symm.trans hplain.isIdle
  | escapeInQuotes | quoteInQuotes => cases hs

theorem not_take_of_idle (hs : s.isIdle = true) : ¬ Acts d c s (.take b next) := by
  intro h
  cases h with
  | joinField hplain => cases hs.symm.trans hplain.isIdle
  | escapedBreak | escapedChar | joinQuotes | escapedInQuotes | doubledQuote | joinBehindQuotes =>
    cases hs

theorem isBare_of_bare_move (hs : s.isBare = true) (h : Acts d c s (.move next)) :
    next.isBare = true := by
  cases h with
  | escapeNext | escapeFirst => rfl
  | openQuotes hstart | skipSpace hstart => rcases hstart with rfl | rfl <;> cases hs
  | leadingBreak | escapeInQuotes | quoteInQuotes | furtherBreak => cases hs

theorem isBare_of_bare_take (hs : s.isBare = true) (h : Acts d c s (.take b next)) :
    next.isBare = true := by
  cases h with
  | joinField => exact hs
  | escapedBreak | escapedChar => rfl
  | joinQuotes | escapedInQuotes | doubledQuote | joinBehindQuotes => cases hs

theorem isIdle_of_close (h : Acts d c s (.close next)) : next.isIdle = true := by
  cases h <;> rfl

theorem startsField_of_next? {a : Action} (h : Acts d c s a) (hn : a.next? = some next)
    (hstart : next.IsStart) : d.startsField c = true := by
  cases h with
  | delimitEmptyField _ hc | delimitField _ hc | delimitQuotes hc =>
    simp [Dialect.startsField, hc]
  | skipSpace _ hc hskip => simp [Dialect.startsField, hc, hskip]
  | joinField hplain =>
    cases hn
    cases hstart.isIdle.symm.trans hplain.isIdle
  | refuseText | refuseBreak => cases hn
  | _ =>
    cases hn
    cases hstart <;> contradiction

end Action

namespace Machine

variable {m n : Machine}

/-- Nothing but numbers and empty fields so far: what is complete is one of them, and what is open
is empty or marked for the check. -/
structure Counts (m : Machine) : Prop where
  fields : ∀ s ∈ m.fields, NamesNumber s
  field : m.state.isIdle = true ∧ m.field = #[] ∨ m.state.isBare = true ∧ m.numeric = true

theorem counts_empty : Counts .empty := by
  constructor
  · intro s hs
    simp at hs
  · exact .inl ⟨rfl, rfl⟩

theorem Counts.close (hm : m.Counts) {next : State} (hn : next.isIdle = true)
    (h : m.close next = .ok n) : n.Counts := by
  obtain ⟨hnumber, rfl⟩ := close_eq_ok.mp h
  refine ⟨?_, .inl ⟨hn, rfl⟩⟩
  intro s hs
  rcases Array.mem_push.mp hs with hs | rfl
  · exact hm.fields s hs
  · rcases hm.field with ⟨-, hfield⟩ | ⟨-, hmark⟩
    · exact .inl (by rw [hfield])
    · exact .inr (hnumber hmark)

theorem Counts.addThen (hm : m.Counts) {c : Char} {next : State} (hn : next.isBare = true)
    (hmark : m.numeric = true) (h : m.addThen limit c next = .ok n) : n.Counts := by
  obtain ⟨-, rfl⟩ := addThen_eq_ok.mp h
  exact ⟨hm.fields, .inr ⟨hn, hmark⟩⟩

theorem Counts.step_some (hquoting : d.quoting = .nonNumeric) (hm : m.Counts) {c : Char}
    (hquote : d.isQuote c = false) (hnul : c ≠ '\x00')
    (hescape : m.state.IsStart → d.bareEscape c = false)
    (h : m.step d limit (some c) = .ok n) : n.Counts := by
  rcases step_some_cases h with ⟨next, ha, rfl⟩ | ⟨next, ha, hadd⟩ | ⟨-, hadd⟩ | ⟨next, ha, hclose⟩
  · refine ⟨hm.fields, ?_⟩
    rcases hm.field with ⟨hs, hfield⟩ | ⟨hs, hmark⟩
    · exact .inl ⟨Action.isIdle_of_idle_move hs hquote hnul hescape ha, hfield⟩
    · exact .inr ⟨Action.isBare_of_bare_move hs ha, hmark⟩
  · rcases hm.field with ⟨hs, -⟩ | ⟨hs, hmark⟩
    · exact absurd ha (Action.not_take_of_idle hs)
    · exact hm.addThen (Action.isBare_of_bare_take hs ha) hmark hadd
  · obtain ⟨-, rfl⟩ := addThen_eq_ok.mp hadd
    exact ⟨hm.fields, .inr ⟨rfl, by simp [hquoting]⟩⟩
  · exact hm.close (Action.isIdle_of_close ha) hclose

theorem Counts.scan (hquoting : d.quoting = .nonNumeric) (hm : m.Counts) {text : List Char}
    (hquote : ∀ c ∈ text, d.isQuote c = false) {start : Bool} (hguard : d.guards start text = true)
    (hstart : m.state.IsStart → start = true)
    (h : m.scan d limit text = .ok n) : n.Counts := by
  -- On the characters; `start` follows the states in which a field may start.
  induction text generalizing m start with
  | nil =>
    cases h
    exact hm
  | cons c text ih =>
    obtain ⟨hnul, m', hstep, hrest⟩ := scan_cons_eq_ok.mp h
    simp only [Dialect.guards, Bool.and_eq_true, Bool.not_eq_true', Bool.and_eq_false_iff] at hguard
    have hescape : m.state.IsStart → d.bareEscape c = false := by
      intro hs
      rcases hguard.1 with hno | hno
      · simp [hstart hs] at hno
      · exact hno
    apply ih (hm.step_some hquoting (hquote c List.mem_cons_self) hnul hescape hstep)
      (fun b hb => hquote b (List.mem_cons_of_mem c hb)) hguard.2 _ hrest
    intro hs
    obtain ⟨a, ha, hn⟩ := acts_of_step hstep
    exact Action.startsField_of_next? ha hn hs

theorem Counts.step_none (hm : m.Counts) (h : m.step d limit none = .ok n) : n.Counts := by
  rcases step_none_cases h with hclose | ⟨hs, rfl⟩ | ⟨rfl, -⟩
  · exact hm.close rfl hclose
  · refine ⟨hm.fields, .inl ⟨rfl, ?_⟩⟩
    rcases hm.field with ⟨-, hfield⟩ | ⟨hbare, -⟩
    · exact hfield
    · rcases hs with hs | hs <;> rw [hs] at hbare <;> cases hbare
  · exact hm

theorem Counts.numeric (hm : m.Counts) (hs : m.state.isIdle = false) : m.numeric = true := by
  rcases hm.field with ⟨hidle, -⟩ | ⟨-, hmark⟩
  · cases hs.symm.trans hidle
  · exact hmark

theorem Counts.resume (hm : m.Counts) (h : m.resume limit = .ok n) : n.Counts := by
  rcases resume_cases h with rfl | ⟨hs, hadd⟩ | ⟨hs, -⟩
  · exact hm
  · exact hm.addThen rfl (hm.numeric (by rw [hs]; rfl)) hadd
  · rcases hm.field with ⟨hidle, -⟩ | ⟨hbare, -⟩
    · rw [hs] at hidle
      cases hidle
    · rw [hs] at hbare
      cases hbare

theorem Counts.readLine (hquoting : d.quoting = .nonNumeric) (hm : m.Counts) {line : String}
    (hquote : ∀ c ∈ line.toList, d.isQuote c = false) (hguard : d.guards true line.toList = true)
    (h : m.readLine d limit line = .ok n) : n.Counts := by
  obtain ⟨m₁, hresume, hfeed⟩ := readLine_eq_ok.mp h
  obtain ⟨m₂, hscan, hend⟩ := feed_eq_ok.mp hfeed
  exact ((hm.resume hresume).scan hquoting hquote hguard (fun _ => rfl) hscan).step_none hend

theorem Counts.ending (hm : m.Counts) (h : m.ending d limit = .ok n) : n.Counts := by
  obtain ⟨m', rfl | ⟨hpending, e, -, hadd⟩, hclose⟩ := ending_eq_ok h
  · exact hm.close rfl hclose
  · rcases hm.field with ⟨hidle, -⟩ | ⟨hbare, hmark⟩
    · cases hs : m.state <;> simp_all [pendingEscape, State.isIdle]
    · exact (hm.addThen hbare hmark hadd).close rfl hclose

end Machine

def QuoteFree (d : Dialect) (source : List Item) : Prop :=
  ∀ line, .ok line ∈ source → ∀ q, d.quote = some q → q ∉ line.toList

def Guarded (d : Dialect) (source : List Item) : Prop :=
  ∀ line, .ok line ∈ source → d.guards true line.toList = true

def OnlyNumbers (r : Reader) : Prop :=
  ∀ k record, r.answer k = some (.ok record) → ∀ s ∈ record, NamesNumber s

theorem Cursor.namesNumber_of_pull {r : Cursor} (hdialect : r.dialect = d)
    (hquoting : d.quoting = .nonNumeric) {m : Machine} (hm : m.Counts) {n : Nat} {items : List Item}
    (hfree : QuoteFree d items) (hguard : Guarded d items) {record : Record}
    (h : (r.pull m n items).result = some (.ok record)) : ∀ s ∈ record, NamesNumber s := by
  subst hdialect
  have hread : ∀ {m n : Machine} {line : String}, .ok line ∈ items → m.Counts →
      m.readLine r.dialect r.limit line = .ok n → n.Counts := by
    intro m n line hline hm hread
    apply hm.readLine hquoting _ (hguard line hline) hread
    intro c hc
    rw [Bool.eq_false_iff]
    exact fun hq => hfree line hline c (Dialect.isQuote_iff.mp hq).2 hc
  fun_induction Cursor.pull r m n items with
  | case1 m n =>
    obtain ⟨m', hend, rfl⟩ := exists_ending_of_finish h
    intro s hs
    exact (hm.ending hend).fields s (by simpa using hs)
  | case2 m n cause rest => cases h
  | case3 m n line rest cause hline => cases h
  | case4 m n line rest m' hline hs =>
    cases h
    intro s hs
    exact (hread List.mem_cons_self hm hline).fields s (by simpa using hs)
  | case5 m n line rest m' hline hs ih =>
    apply ih (hread List.mem_cons_self hm hline) h
    · exact fun l hmem => hfree l (List.mem_cons_of_mem _ hmem)
    · exact fun l hmem => hguard l (List.mem_cons_of_mem _ hmem)
    · exact fun hmem => hread (List.mem_cons_of_mem _ hmem)

theorem onlyNumbers_of_guarded (hquoting : d.quoting = .nonNumeric) {source : List Item}
    (hfree : QuoteFree d source) (hguard : Guarded d source) :
    (fresh source d limit).OnlyNumbers := by
  intro k record h
  rw [answer_eq] at h
  obtain ⟨r, n, items, hdialect, -, hsuffix, hpull⟩ := Cursor.exists_pull_of_answer h
  apply Cursor.namesNumber_of_pull hdialect hquoting Machine.counts_empty _ _ hpull
  · exact fun line hline => hfree line (hsuffix.mem hline)
  · exact fun line hline => hguard line (hsuffix.mem hline)

theorem answer_of_escape (hd : d.Valid) {e c : Char} (he : d.bareEscape e = true)
    (hc : c ≠ '\x00') (hbreak : isBreak c = false) :
    (fresh [.ok (String.ofList [e, c])] d 1).answer 0 = some (.ok [String.ofList [c]]) := by
  simp only [Dialect.bareEscape, Bool.and_eq_true, Bool.not_eq_true', bne_iff_ne] at he
  obtain ⟨⟨hescape, hebreak⟩, hnul⟩ := he
  have hfirst : Machine.step d 1 .empty (some e) = .ok (.of .escaped #[] #[] false) := by
    apply Machine.step_of_move
    simp [Action.ofChar, Action.ofFieldStart, hebreak, hd.isQuote_of_escape hescape, hescape]
  have hsecond : Machine.step d 1 (.of .escaped #[] #[] false) (some c) =
      .ok (.of .inField #[] #[c] false) := by
    apply Machine.step_of_take
    · simp [Action.ofChar, hbreak]
    · exact Nat.one_pos
  have hfeed : Machine.feed d 1 .empty (String.ofList [e, c]).toList =
      .ok (.of .startRecord (#[String.ofList [c]]) #[] false) := by
    rw [String.toList_ofList, Machine.feed_cons_of_step hnul hfirst,
      Machine.feed_cons_of_step hc hsecond]
    rfl
  have hcompletes :
      (Cursor.fresh [.ok (String.ofList [e, c])] d 1).Completes 1 [String.ofList [c]] :=
    Cursor.completes_one.mpr ⟨_, hfeed, rfl, rfl⟩
  exact (answer_eq _ 0).trans (congrArg Cursor.Pull.result hcompletes)

theorem exists_no_number (d : Dialect) :
    ∃ c, c ≠ '\x00' ∧ isBreak c = false ∧ d.quote ≠ some c ∧ ¬ NamesNumber (String.ofList [c]) := by
  by_cases hq : d.quote = some 'x'
  · exact ⟨'y', by decide, by decide, by simp [hq], by simp [NamesNumber]; decide⟩
  · exact ⟨'x', by decide, by decide, hq, by simp [NamesNumber]; decide⟩

/-- Where no quotes stand in the source, every field of every record is empty or names a number as
long as no escape begins a field. A dialect for which this holds of all sources without quotes is
one that has no escape outside quotes. -/
theorem unquoted_fields_name_numbers (hd : d.validate = .ok ())
    (hquoting : d.quoting = .nonNumeric) :
    (∀ source limit r, open? source d limit = .ok r → QuoteFree d source → Guarded d source →
      r.OnlyNumbers) ∧
    ((∀ source limit r, open? source d limit = .ok r → QuoteFree d source → r.OnlyNumbers) ↔
      ∀ c, d.bareEscape c = false) := by
  have hguarded : ∀ source limit r, open? source d limit = .ok r → QuoteFree d source →
      Guarded d source → r.OnlyNumbers := by
    intro source limit r hr hfree hguard
    obtain ⟨-, rfl⟩ := open?_eq_ok.mp hr
    exact onlyNumbers_of_guarded hquoting hfree hguard
  refine ⟨hguarded, ?_, ?_⟩
  · intro hall e
    rw [Bool.eq_false_iff]
    intro he
    have hvalid := Dialect.validate_eq_ok.mp hd
    obtain ⟨c, hnul, hbreak, hquote, hno⟩ := exists_no_number d
    apply hno
    have hfree : QuoteFree d [.ok (String.ofList [e, c])] := by
      intro line hline q hq hmem
      obtain rfl := Except.ok.inj (List.mem_singleton.mp hline)
      simp only [String.toList_ofList, List.mem_cons, List.not_mem_nil, or_false] at hmem
      rcases hmem with rfl | rfl
      · simp only [Dialect.bareEscape, Bool.and_eq_true] at he
        exact hvalid.escape_ne_quote q (Dialect.isEscape_iff.mp he.1.1) hq
      · exact hquote hq
    exact hall _ 1 _ (open?_eq_ok.mpr ⟨hd, rfl⟩) hfree 0 _ (answer_of_escape hvalid he hnul hbreak)
      _ List.mem_cons_self
  · intro hnone source limit r hr hfree
    exact hguarded source limit r hr hfree fun line _ => d.guards_of_none hnone true line.toList

theorem unquoted_fields_name_numbers_inside :
    let d : Dialect := { quoting := .nonNumeric, escape := some '\\' }
    let r := fresh [.ok "1\\2,,+5\n", .ok " 7\\"] d 9
    r.answer 0 = some (.ok ["12", "", "+5"]) ∧ r.OnlyNumbers := by
  intro d r
  have hsource : ∀ line, Except.ok line ∈ r.source → line = "1\\2,,+5\n" ∨ line = " 7\\" := by
    simp [r, fresh]
  have hfree : QuoteFree d r.source := by
    intro line hline q hq
    cases hq
    rcases hsource line hline with rfl | rfl <;> decide
  constructor
  · subst r d
    rfl
  · apply (unquoted_fields_name_numbers rfl rfl).1 r.source 9 r rfl hfree
    intro line hline
    rcases hsource line hline with rfl | rfl <;> rfl

/-- A letter behind an escape is read where a number is asked for. -/
theorem escaped_letter_is_read :
    let d : Dialect := { quoting := .nonNumeric, escape := some '\\' }
    let source : List Item := [.ok "\\a\n"]
    ∃ r, open? source d 9 = .ok r ∧ QuoteFree d source ∧ r.answer 0 = some (.ok ["a"]) ∧
      ¬ r.OnlyNumbers := by
  intro d source
  have hread : (fresh source d 9).answer 0 = some (.ok ["a"]) := rfl
  refine ⟨fresh source d 9, rfl, ?_, hread, ?_⟩
  · intro line hline q hq
    cases hq
    obtain rfl := Except.ok.inj (List.mem_singleton.mp hline)
    decide
  · intro hall
    have hnumber : NamesNumber "a" := hall 0 _ hread "a" List.mem_cons_self
    simp [NamesNumber] at hnumber
    exact absurd hnumber (by decide)

end Reader

end Tabular
