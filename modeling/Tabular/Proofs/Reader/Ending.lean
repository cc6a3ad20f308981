import Tabular.Proofs.Dialect
import Tabular.Proofs.Reader.Contents
import Tabular.Proofs.Reader.Field
import Tabular.Proofs.Reader.Invariants
import Tabular.Proofs.Reader.Progress
import Tabular.Proofs.Reader.Reads

/-! # The end of the input

What is left open when the input ends is closed as the missing characters would have closed it: the
answer is the one that a last line with its closing quote, the character behind its escape, or its
line break would have given. A strict dialect refuses such an input.
-/
namespace Tabular

/-- What the last line lacks if the input ends in a state. -/
inductive Dialect.Closes (d : Dialect) : Reader.State → List Char → Prop where
  | quote {q : Char} : d.isQuote q = true → d.Closes .inQuoted [q]
  | escape {e : Char} : d.isEscape e = true → d.Closes .escaped [e]
  | escapeQuote {e q : Char} : d.isEscape e = true → d.isQuote q = true →
      d.Closes .escapedInQuoted [e, q]
  | lineFeed : d.Closes .afterEscapedBreak ['\n']

namespace Reader

variable {d : Dialect} {limit : Nat}

structure State.Grounded (d : Dialect) (s : State) : Prop where
  quote : s = .inQuoted ∨ s = .escapedInQuoted → ∃ q, d.isQuote q = true
  escape : s = .escaped ∨ s = .escapedInQuoted → ∃ e, d.isEscape e = true

theorem State.grounded_startRecord (d : Dialect) : State.startRecord.Grounded d := by
  constructor <;> simp

theorem State.Grounded.next {c : Char} {s next : State} {a : Action} (hs : s.Grounded d)
    (ha : Action.Acts d c s a) (hn : a.next? = some next) : next.Grounded d := by
  cases ha with
  | openQuotes _ hquote | doubledQuote hquote =>
    cases hn
    exact ⟨fun _ => ⟨c, hquote⟩, by simp⟩
  | escapeFirst _ _ hescape | escapeNext _ _ hescape =>
    cases hn
    exact ⟨by simp, fun _ => ⟨c, hescape⟩⟩
  | escapeInQuotes hescape =>
    cases hn
    exact ⟨fun _ => hs.quote (.inl rfl), fun _ => ⟨c, hescape⟩⟩
  | escapedInQuotes =>
    cases hn
    exact ⟨fun _ => hs.quote (.inr rfl), by simp⟩
  | joinField | joinQuotes =>
    cases hn
    exact hs
  | refuseText | refuseBreak => cases hn
  | _ =>
    cases hn
    exact ⟨by simp, by simp⟩

namespace Machine

variable {m n : Machine}

theorem grounded_of_readLine {line : String} (hm : m.state.Grounded d)
    (h : m.readLine d limit line = .ok n) : n.state.Grounded d := by
  refine @readLine_keeps d limit m n (fun m => m.state.Grounded d) ?_ ?_ line ?_ hm h
  · intro m n c _ hm h
    obtain ⟨a, ha, hn⟩ := acts_of_step h
    exact hm.next ha hn
  · intro m n hm h
    rcases state_or_eq_of_step_none h with hs | ⟨rfl, -⟩
    · rw [hs]
      exact State.grounded_startRecord d
    · exact hm
  · intro m n hm h
    rcases resume_cases h with rfl | ⟨-, hadd⟩ | ⟨hs, hadd⟩
    · exact hm
    · obtain ⟨-, rfl⟩ := addThen_eq_ok.mp hadd
      constructor <;> simp
    · obtain ⟨-, rfl⟩ := addThen_eq_ok.mp hadd
      constructor
      · exact fun _ => hm.quote (.inr hs)
      · simp

theorem ending_of_escaped {e : Char} (he : d.escape = some e) (hm : m.pendingEscape = true)
    (next : State) :
    m.ending d limit = (m.addThen limit e next).bind (·.close .startRecord) := by
  rw [ending, settleEscape_of_pending hm he, addThen_eq, addThen_eq]
  split
  · exact close_goto (of next m.fields (m.field.push e) m.numeric) m.state .startRecord
  · rfl

theorem ending_of_not_escaped (hm : m.pendingEscape = false) :
    m.ending d limit = m.close .startRecord := by
  rw [ending, settleEscape_of_not_pending hm]
  rfl

theorem of_ending_eq_ok (h : m.ending d limit = .ok n) :
    n.state = .startRecord ∧ n.field = #[] := by
  obtain ⟨m', -, hclose⟩ := ending_eq_ok h
  obtain ⟨-, rfl⟩ := close_eq_ok.mp hclose
  exact ⟨rfl, rfl⟩

theorem feed_quote (hd : d.Valid) {q : Char} (hq : d.isQuote q = true) (hnul : q ≠ '\x00')
    (hm : m.state = .inQuoted) : m.feed d limit [q] = m.close .startRecord := by
  have hstep : m.step d limit (some q) = .ok (m.goto .quoteInQuoted) := by
    apply step_of_move
    simp [hm, Action.ofChar, hd.isEscape_of_quote hq, hq]
  rw [feed_cons_of_step hnul hstep, feed_nil, step_none]
  exact close_goto m .quoteInQuoted .startRecord

theorem feed_escape {e : Char} (he : d.escape = some e) (hbreak : isBreak e = false)
    (hnul : e ≠ '\x00') (hm : m.state = .escaped) : m.feed d limit [e] = m.ending d limit := by
  rw [ending_of_escaped he (by simp [pendingEscape, hm]) .inField, feed_cons m hnul, step_some, hm]
  simp only [Action.ofChar, hbreak, Action.perform, addThen_eq]
  split <;> rfl

theorem feed_escape_quote (hd : d.Valid) {e q : Char} (he : d.escape = some e) (hnul : e ≠ '\x00')
    (hq : d.isQuote q = true) (hqnul : q ≠ '\x00') (hm : m.state = .escapedInQuoted) :
    m.feed d limit [e, q] = m.ending d limit := by
  rw [ending_of_escaped he (by simp [pendingEscape, hm]) .inQuoted, feed_cons m hnul, step_some, hm]
  cases hadd : m.addThen limit e .inQuoted with
  | error cause => simp only [Action.ofChar, Action.perform, hadd, Except.bind]
  | ok n =>
    have hn : n.state = .inQuoted := by
      obtain ⟨-, rfl⟩ := addThen_eq_ok.mp hadd
      rfl
    simp only [Action.ofChar, Action.perform, hadd, Except.bind, feed_quote hd hq hqnul hn]

theorem feed_lineFeed (hm : m.state = .afterEscapedBreak) :
    m.feed d limit ['\n'] = m.ending d limit := by
  have hbreak : Action.ofChar d '\n' .afterEscapedBreak = .close .afterBreak := rfl
  rw [ending_of_not_escaped (by simp [pendingEscape, hm]), feed_cons m (by decide), step_some, hm,
    hbreak]
  simp only [Action.perform, close_eq]
  split <;> rfl

/-- The characters that the last line lacks do what the end of the input does. -/
theorem feed_closes (hd : d.Valid) (hb : d.BreakFree) (hq : d.quote ≠ some '\x00')
    (he : d.escape ≠ some '\x00') {more : List Char} (h : d.Closes m.state more) :
    m.feed d limit more = m.ending d limit := by
  have hquote : ∀ {q}, d.isQuote q = true → q ≠ '\x00' := by
    rintro q hc rfl
    exact hq (Dialect.isQuote_iff.mp hc).2
  have hescape : ∀ {e}, d.isEscape e = true → e ≠ '\x00' := by
    rintro e hc rfl
    exact he (Dialect.isEscape_iff.mp hc)
  generalize hs : m.state = s at h
  cases h with
  | quote hc =>
    rw [ending_of_not_escaped (by simp [pendingEscape, hs])]
    exact feed_quote hd hc (hquote hc) hs
  | escape hc =>
    have hset := Dialect.isEscape_iff.mp hc
    exact feed_escape hset (hb.escape _ hset) (hescape hc) hs
  | escapeQuote hc hc' =>
    exact feed_escape_quote hd (Dialect.isEscape_iff.mp hc) (hescape hc) hc' (hquote hc') hs
  | lineFeed => exact feed_lineFeed hs

theorem exists_closes (hg : m.state.Grounded d)
    (hm : m.pendingEscape = true ∨ m.state = .inQuoted ∨ m.state = .afterEscapedBreak) :
    ∃ more, d.Closes m.state more := by
  simp only [pendingEscape, Bool.or_eq_true, beq_iff_eq] at hm
  rcases hm with (hs | hs) | hs | hs
  · obtain ⟨e, he⟩ := hg.escape (.inl hs)
    exact hs ▸ ⟨[e], .escape he⟩
  · obtain ⟨e, he⟩ := hg.escape (.inr hs)
    obtain ⟨q, hq⟩ := hg.quote (.inr hs)
    exact hs ▸ ⟨[e, q], .escapeQuote he hq⟩
  · obtain ⟨q, hq⟩ := hg.quote (.inl hs)
    exact hs ▸ ⟨[q], .quote hq⟩
  · exact hs ▸ ⟨['\n'], .lineFeed⟩

/-- A line that leaves the record open takes more characters as if they stood behind its end. -/
theorem readLine_append {line : String} (h : m.readLine d limit line = .ok n)
    (hn : n.state ≠ .startRecord) :
    (n.pendingEscape = true ∨ n.state = .inQuoted ∨ n.state = .afterEscapedBreak) ∧
      ∀ more, m.readLine d limit (line ++ String.ofList more) = n.feed d limit more := by
  obtain ⟨m₁, hresume, hfeed⟩ := readLine_eq_ok.mp h
  obtain ⟨m₂, hscan, hend⟩ := feed_eq_ok.mp hfeed
  obtain ⟨rfl, hopen⟩ := (state_or_eq_of_step_none hend).resolve_left hn
  refine ⟨hopen, fun more => ?_⟩
  rw [readLine_eq_bind, hresume, String.toList_append, String.toList_ofList]
  exact feed_append_of_scan hscan more

end Machine

/-- The machine that items leave behind: in the middle of a record, or fresh. -/
def behind (d : Dialect) (limit : Nat) : Machine → List Item → Machine
  | m, [] => m
  | _, .error _ :: items => behind d limit .empty items
  | m, .ok line :: items =>
    match m.readLine d limit line with
    | .error _ => behind d limit .empty items
    | .ok m => behind d limit (if m.state = .startRecord then .empty else m) items

theorem behind_append (m : Machine) (first second : List Item) :
    behind d limit m (first ++ second) = behind d limit (behind d limit m first) second := by
  induction first generalizing m with
  | nil => rfl
  | cons item first ih =>
    cases item with
    | error cause => exact ih .empty
    | ok line =>
      simp only [List.cons_append, behind]
      cases m.readLine d limit line with
      | error cause => exact ih .empty
      | ok m' => exact ih _

theorem behind_keeps {P : Machine → Prop} (hfresh : P .empty)
    (hline : ∀ {m n line}, P m → m.readLine d limit line = .ok n → P n) {m : Machine} (hm : P m)
    (items : List Item) : P (behind d limit m items) := by
  induction items generalizing m with
  | nil => exact hm
  | cons item items ih =>
    cases item with
    | error cause => exact ih hfresh
    | ok line =>
      simp only [behind]
      cases hread : m.readLine d limit line with
      | error cause => exact ih hfresh
      | ok m' =>
        apply ih
        split
        · exact hfresh
        · exact hline hm hread

theorem coherent_behind (items : List Item) : (behind d limit .empty items).Coherent := by
  apply behind_keeps
  · exact fun h => by cases h
  · exact fun hm h => (Machine.readLine_coherent hm h).1
  · exact fun h => by cases h

theorem grounded_behind (items : List Item) : (behind d limit .empty items).state.Grounded d := by
  refine @behind_keeps d limit (fun m => m.state.Grounded d) ?_ ?_ .empty ?_ items
  · exact State.grounded_startRecord d
  · exact Machine.grounded_of_readLine
  · exact State.grounded_startRecord d

theorem readLine_of_behind {m n : Machine} {line : String}
    (h : behind d limit m [.ok line] = n) (hn : n.state ≠ .startRecord) :
    m.readLine d limit line = .ok n := by
  simp only [behind] at h
  cases hread : m.readLine d limit line with
  | error cause =>
    rw [hread] at h
    exact absurd (congrArg Machine.state h).symm hn
  | ok m' =>
    simp only [hread] at h
    by_cases hs : m'.state = .startRecord
    · rw [if_pos hs] at h
      exact absurd (congrArg Machine.state h).symm hn
    · rw [if_neg hs] at h
      rw [h]

def results (r : Reader) : List (Except Failure Record) := r.pulls.filterMap Pull.result

theorem results_of_some {r after : Reader} {answer : Except Failure Record}
    (h : r.next = ⟨some answer, after⟩) : r.results = answer :: after.results := by
  simp only [results, pulls]
  rw [pullsOnto_of_some h, pullsOnto_eq_append]
  simp

theorem results_of_none {r after : Reader} (h : r.next = ⟨none, after⟩) : r.results = [] := by
  simp only [results, pulls]
  rw [pullsOnto_of_none h]
  simp

theorem results_congr {r s : Reader} (h : r.toCursor = s.toCursor) : r.results = s.results := by
  induction hn : r.source.length using Nat.strongRecOn generalizing r s with
  | ind n ih =>
    have hresult : s.next.result = r.next.result := by rw [result_next, result_next, h]
    have hafter : r.next.after.toCursor = s.next.after.toCursor := by simp [h]
    rcases hr : r.next with ⟨_ | answer, after⟩ <;> rcases hs : s.next with ⟨_ | answer', after'⟩
    · rw [results_of_none hr, results_of_none hs]
    · simp [hr, hs] at hresult
    · simp [hr, hs] at hresult
    · rw [hr, hs] at hresult hafter
      cases hresult
      have hlt := source_length_lt_of_next hr
      rw [results_of_some hr, results_of_some hs, ih _ (hn ▸ hlt) hafter rfl]

namespace Cursor

def results (r : Cursor) : List (Except Failure Record) := (Reader.mk r .empty).results

theorem results_of_some {r after : Cursor} {answer : Except Failure Record}
    (h : r.next = ⟨some answer, after⟩) : r.results = answer :: after.results := by
  have hresult : (Reader.mk r .empty).next.result = some answer := by rw [result_next, h]
  have hnext : (Reader.mk r .empty).next = ⟨some answer, (Reader.mk r .empty).next.after⟩ := by
    rw [← hresult]
  have hafter : (Reader.mk r .empty).next.after.toCursor = after := by rw [toCursor_next, h]
  rw [results, Reader.results_of_some hnext, results_congr (s := ⟨after, .empty⟩) hafter, results]

theorem results_of_source_nil {r : Cursor} (hs : r.source = []) : r.results = [] := by
  have hresult : (Reader.mk r .empty).next.result = none :=
    (result_next _).trans (next_of_source_nil hs).1
  have hnext : (Reader.mk r .empty).next = ⟨none, (Reader.mk r .empty).next.after⟩ := by
    rw [← hresult]
  exact results_of_none hnext

theorem results_of_last {r : Cursor} {answer : Except Failure Record}
    (h : r.next.result = some answer) (hs : r.next.after.source = []) : r.results = [answer] := by
  have hnext : r.next = ⟨some answer, r.next.after⟩ := by rw [← h]
  rw [results_of_some hnext, results_of_source_nil hs]

theorem pull_append_cases (r : Cursor) (m : Machine) (n : Nat) (items : List Item) :
    (∃ answer rest n', rest.length < items.length ∧ ∀ tail,
      r.pull m n (items ++ tail) =
          ⟨some answer, { r with source := rest ++ tail, lineNum := n' }⟩ ∧
        behind r.dialect r.limit m (items ++ tail) =
          behind r.dialect r.limit .empty (rest ++ tail)) ∨
      ∃ n', ∀ tail,
        r.pull m n (items ++ tail) = r.pull (behind r.dialect r.limit m items) n' tail := by
  induction items generalizing m n with
  | nil => exact .inr ⟨n, fun tail => rfl⟩
  | cons item items ih =>
    have hlt : items.length < (item :: items).length := Nat.lt_succ_self _
    cases item with
    | error cause => exact .inl ⟨.error cause, items, n, hlt, fun tail => ⟨rfl, rfl⟩⟩
    | ok line =>
      simp only [List.cons_append, pull, behind]
      cases hread : m.readLine r.dialect r.limit line with
      | error cause => exact .inl ⟨.error cause, items, n + 1, hlt, fun tail => ⟨rfl, rfl⟩⟩
      | ok m' =>
        by_cases hs : m'.state = .startRecord
        · simp only [hs, if_true]
          exact .inl ⟨.ok m'.fields.toList, items, n + 1, hlt, fun tail => ⟨rfl, rfl⟩⟩
        · simp only [hs, if_false]
          rcases ih m' (n + 1) with ⟨answer, rest, n', hrest, hpull⟩ | hpull
          · exact .inl ⟨answer, rest, n', Nat.lt_trans hrest hlt, hpull⟩
          · exact .inr hpull

theorem next_fresh (source : List Item) (n : Nat) :
    ({ fresh source d limit with lineNum := n } : Cursor).next =
      (fresh [] d limit).pull .empty n source :=
  pull_with (fresh [] d limit) source n .empty n source

/-- The last line leaves its record to the end of the input. With what it lacks, it completes the
record itself. -/
theorem pull_last (r : Cursor) {m n : Machine} {line : String} (hm : m.Coherent)
    (hread : m.readLine r.dialect r.limit line = .ok n) (hn : n.state ≠ .startRecord)
    {full : String}
    (hfull : m.readLine r.dialect r.limit full = n.ending r.dialect r.limit) (k : Nat) :
    ((r.pull m k [.ok line]).result = some (if r.dialect.strict then .error .unexpectedEnd
        else (n.ending r.dialect r.limit).map fun m => m.fields.toList) ∧
      (r.pull m k [.ok line]).after.source = []) ∧
    (r.pull m k [.ok full]).result =
        some ((n.ending r.dialect r.limit).map fun m => m.fields.toList) ∧
      (r.pull m k [.ok full]).after.source = [] := by
  have hopen := (Machine.readLine_coherent hm hread).2.resolve_left hn
  constructor
  · simp only [pull, hread, hn, if_false, finish_eq_ending hopen, and_self]
  · rw [pull_ok_cons, hfull]
    cases hend : n.ending r.dialect r.limit with
    | error cause => exact ⟨rfl, rfl⟩
    | ok n' =>
      simp only [afterLine, (Machine.of_ending_eq_ok hend).1, if_true, Except.map, and_self]

/-- The last answers are what the end of the input makes of the open record and what the characters
that the last line lacks make of it. -/
theorem results_of_open (hd : d.Valid) (hb : d.BreakFree) (hq : d.quote ≠ some '\x00')
    (he : d.escape ≠ some '\x00') {items : List Item} {line : String} {m : Machine}
    (hm : behind d limit .empty (items ++ [.ok line]) = m) (hopen : m.state ≠ .startRecord)
    (n : Nat) :
    ∃ more earlier, d.Closes m.state more ∧
      ({ fresh (items ++ [.ok line]) d limit with lineNum := n } : Cursor).results = earlier ++
        [if d.strict then .error .unexpectedEnd
          else (m.ending d limit).map fun m => m.fields.toList] ∧
      ({ fresh (items ++ [.ok (line ++ String.ofList more)]) d limit with
        lineNum := n } : Cursor).results =
          earlier ++ [(m.ending d limit).map fun m => m.fields.toList] := by
  induction hk : items.length using Nat.strongRecOn generalizing items n with
  | ind k ih =>
    rcases pull_append_cases (fresh [] d limit) .empty n items with
      ⟨answer, rest, n', hrest, hpull⟩ | ⟨n', hpull⟩
    · have hbehind := (hpull [.ok line]).2
      obtain ⟨more, earlier, hmore, hleft, hright⟩ :=
        ih rest.length (by omega) (hbehind.symm.trans hm) n' rfl
      refine ⟨more, answer :: earlier, hmore, ?_, ?_⟩
      · rw [results_of_some ((next_fresh _ n).trans (hpull _).1), List.cons_append, ← hleft]
        rfl
      · rw [results_of_some ((next_fresh _ n).trans (hpull _).1), List.cons_append, ← hright]
        rfl
    · have hground : m.state.Grounded d := hm ▸ grounded_behind (items ++ [.ok line])
      rw [behind_append] at hm
      have hread := readLine_of_behind hm hopen
      obtain ⟨hstate, happend⟩ := Machine.readLine_append hread hopen
      obtain ⟨more, hmore⟩ := Machine.exists_closes hground hstate
      have hfull := (happend more).trans (Machine.feed_closes hd hb hq he hmore)
      obtain ⟨⟨hresult, hsource⟩, hresult', hsource'⟩ :=
        pull_last (fresh [] d limit) (coherent_behind items) hread hopen hfull n'
      have hnext : ∀ tail, ({ fresh (items ++ tail) d limit with lineNum := n } : Cursor).next =
          (fresh [] d limit).pull (behind d limit .empty items) n' tail := fun tail =>
        (next_fresh _ n).trans (hpull tail)
      rw [← hnext] at hresult hsource hresult' hsource'
      exact ⟨more, [], hmore, results_of_last hresult hsource, results_of_last hresult' hsource'⟩

end Cursor

/-- What is open when the input ends is closed. A strict dialect refuses the input; any other
answers what it would answer if the last line had the quote, the character behind the escape or the
line break that it lacks. The answers before do not depend on these characters. -/
theorem end_of_input_closes (hd : d.validate = .ok ()) (hb : d.BreakFree)
    (hq : d.quote ≠ some '\x00') (he : d.escape ≠ some '\x00') (items : List Item) (line : String)
    {s : State} (hs : (behind d limit .empty (items ++ [.ok line])).state = s)
    (hopen : s ≠ .startRecord) :
    ∃ more r full, d.Closes s more ∧ open? (items ++ [.ok line]) d limit = .ok r ∧
      open? (items ++ [.ok (line ++ String.ofList more)]) d limit = .ok full ∧
      ∃ earlier last last', r.results = earlier ++ [last] ∧ full.results = earlier ++ [last'] ∧
        (d.strict = true → last = .error .unexpectedEnd) ∧ (d.strict = false → last = last') := by
  subst hs
  obtain ⟨more, earlier, hmore, hleft, hright⟩ :=
    Cursor.results_of_open (Dialect.validate_eq_ok.mp hd) hb hq he rfl hopen 0
  refine ⟨more, _, _, hmore, open?_eq_ok.mpr ⟨hd, rfl⟩, open?_eq_ok.mpr ⟨hd, rfl⟩, earlier, _, _,
    hleft, hright, ?_, ?_⟩
  · intro hstrict
    rw [if_pos hstrict]
  · intro hstrict
    rw [if_neg (by simp [hstrict])]

/-- The escape at the end of the input, inside quotes, is read as an escaped escape and a quote. -/
theorem end_of_input_closes_escape :
    let d : Dialect := { escape := some '\\' }
    let items : List Item := [.ok "a\n", Lines.fault "gone"]
    (behind d 9 .empty (items ++ [.ok "x,\"b\\"])).state = .escapedInQuoted ∧
      ∃ r full, open? (items ++ [.ok "x,\"b\\"]) d 9 = .ok r ∧
        open? (items ++ [.ok "x,\"b\\\\\""]) d 9 = .ok full ∧ r.results = full.results ∧
        full.answer 2 = some (.ok ["x", "b\\"]) := by
  intro d items
  have hs : (behind d 9 .empty (items ++ [.ok "x,\"b\\"])).state = .escapedInQuoted := rfl
  obtain ⟨more, r, full, hmore, hr, hfull, earlier, last, last', hleft, hright, -, hlast⟩ :=
    end_of_input_closes rfl (by decide) (by decide) (by decide) items _ hs (by decide)
  cases hmore with
  | escapeQuote he hq =>
    obtain rfl := Option.some.inj (Dialect.isEscape_iff.mp he)
    obtain rfl := Option.some.inj (Dialect.isQuote_iff.mp hq).2
    refine ⟨hs, r, full, hr, hfull, ?_, ?_⟩
    · rw [hleft, hright, hlast rfl]
    · obtain ⟨-, rfl⟩ := open?_eq_ok.mp hfull
      subst items d
      rfl

end Reader

end Tabular
