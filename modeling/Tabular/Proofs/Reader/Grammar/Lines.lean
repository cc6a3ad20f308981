import Tabular.Proofs.Lines
import Tabular.Proofs.Reader.Grammar
import Tabular.Proofs.Reader.Invariants
import Tabular.Proofs.Reader.Requests

/-! # The grammar of records cut into lines

A reader completes a record with the first line at which the lines read so far form a text of the
grammar. Wherever the lines were cut, the record goes on behind a line end only inside quotes.
-/
namespace Tabular.Reader.Machine

open Grammar

variable {d : Dialect} {limit : Nat} {m n : Machine} {c : Char}

theorem numeric_of_step (hd : Regular d) (hm : m.numeric = false)
    (h : m.step d limit (some c) = .ok n) : n.numeric = false := by
  rcases step_some_cases h with ⟨next, -, rfl⟩ | ⟨next, -, hadd⟩ | ⟨-, hadd⟩ | ⟨next, -, hclose⟩
  · exact hm
  · obtain ⟨-, rfl⟩ := addThen_eq_ok.mp hadd
    exact hm
  · obtain ⟨-, rfl⟩ := addThen_eq_ok.mp hadd
    simp [hm, hd.quoting_beq]
  · obtain ⟨-, rfl⟩ := close_eq_ok.mp hclose
    rfl

theorem reading_of_scan (hd : Regular d) {u : List Char} (hm : Reading d m)
    (hnumeric : m.numeric = false) (h : m.scan d limit u = .ok n) :
    Reading d n ∧ n.numeric = false := by
  refine @scan_keeps d limit m n (fun m => Reading d m ∧ m.numeric = false) ?_ u ⟨hm, hnumeric⟩ h
  intro m n c _ hm hstep
  exact ⟨(extends_of_step hd hm.1 hstep).1, numeric_of_step hd hm.2 hstep⟩

theorem step_none_isOk (hm : m.numeric = false) : ∃ n, m.step d limit none = .ok n := by
  have hclose : ∀ next, ∃ n, m.close next = .ok n := by
    intro next
    exact ⟨_, close_eq_ok.mpr ⟨fun h => by simp [hm] at h, rfl⟩⟩
  rw [step_none]
  cases m.state <;> first | exact hclose _ | exact ⟨_, rfl⟩

theorem reading_of_scan_fresh (hd : Regular d) {u : List Char} (hu : u ≠ [])
    (h : scan d limit .empty u = .ok n) : Reading d n ∧ n.numeric = false := by
  cases u with
  | nil => exact absurd rfl hu
  | cons c u =>
    obtain ⟨-, m₁, hstep, hrest⟩ := scan_cons_eq_ok.mp h
    have hm₁ : Reading d m₁ ∧ m₁.numeric = false := by
      refine ⟨?_, numeric_of_step hd rfl hstep⟩
      cases hc : isBreak c with
      | true =>
        have hbreak : step d limit .empty (some c) = .ok (goto .empty .afterBreak) :=
          step_of_move (by simp [Action.ofChar, hc])
        cases hbreak.symm.trans hstep
        exact ⟨by simp [goto], by simp [goto], by simp [goto]⟩
      | false =>
        have hstart : step d limit (.of .startField #[] #[] false) (some c) = .ok m₁ :=
          (step_startRecord (m := .empty) hc).symm.trans hstep
        exact (extends_of_step hd (reading_startField d) hstart).1
    exact reading_of_scan hd hm₁.1 hm₁.2 hrest

theorem feed_isOk_of_scan (hd : Regular d) {u : List Char} (h : scan d limit .empty u = .ok m) :
    ∃ n, feed d limit .empty u = .ok n := by
  have hm : m.numeric = false := by
    by_cases hu : u = []
    · subst hu
      cases h
      rfl
    · exact (reading_of_scan_fresh hd hu h).2
  obtain ⟨n, hn⟩ : ∃ n, m.step d limit none = .ok n := step_none_isOk hm
  exact ⟨n, feed_eq_ok.mpr ⟨m, h, hn⟩⟩

/-- A record goes on behind the end of a line only inside quotes. -/
theorem inQuoted_of_unfinished (hd : Regular d) {u : List Char} (h : feed d limit .empty u = .ok n)
    (hn : n.state ≠ .startRecord) : scan d limit .empty u = .ok n ∧ n.state = .inQuoted := by
  obtain ⟨m, hscan, hend⟩ := feed_eq_ok.mp h
  rcases state_or_eq_of_step_none hend with hs | ⟨rfl, hs⟩
  · exact absurd hs hn
  · refine ⟨hscan, ?_⟩
    by_cases hu : u = []
    · subst hu
      cases hscan
      exact absurd rfl hn
    · obtain ⟨-, h₂, h₃, h₄⟩ := (reading_of_scan_fresh hd hu hscan).1.state
      rcases hs with hs | hs | hs
      · simp [pendingEscape, h₂, h₃] at hs
      · exact hs
      · exact absurd hs h₄

end Tabular.Reader.Machine

namespace Tabular.Reader

open Grammar Lines

/-- The first `k` lines, and no fewer, continue `w` to the text of `record`. -/
structure FirstSpelled (d : Dialect) (w : List Char) (lines : List String) (k : Nat)
    (record : Record) : Prop where
  pos : 0 < k
  le_length : k ≤ lines.length
  spells : Spells d (w ++ textOf (lines.take k)) record
  first : ∀ j, 0 < j → j < k → ∀ record', ¬ Spells d (w ++ textOf (lines.take j)) record'

theorem firstSpelled_one {d : Dialect} {w : List Char} {line : String} {lines : List String}
    {record : Record} (h : Spells d (w ++ line.toList) record) {k : Nat} {record' : Record} :
    FirstSpelled d w (line :: lines) (k + 1) record' ↔
      k = 0 ∧ Spells d (w ++ line.toList) record' := by
  constructor
  · intro hf
    have hk : k = 0 := by
      rcases Nat.eq_zero_or_pos k with hk | hk
      · exact hk
      · exact absurd (by simpa using h) (hf.first 1 Nat.one_pos (by omega) record)
    subst hk
    exact ⟨rfl, by simpa using hf.spells⟩
  · rintro ⟨rfl, hs⟩
    exact ⟨Nat.one_pos, by simp, by simpa using hs, fun j hj hj' => by omega⟩

theorem firstSpelled_succ {d : Dialect} {w : List Char} {line : String} {lines : List String}
    (h : ∀ record, ¬ Spells d (w ++ line.toList) record) {k : Nat} {record : Record} :
    FirstSpelled d w (line :: lines) (k + 1) record ↔
      FirstSpelled d (w ++ line.toList) lines k record := by
  constructor
  · intro hf
    have hk : 0 < k := by
      rcases Nat.eq_zero_or_pos k with hk | hk
      · subst hk
        exact absurd (by simpa using hf.spells) (h record)
      · exact hk
    refine ⟨hk, by simpa using hf.le_length, by simpa using hf.spells, ?_⟩
    intro j hj hjk record' hs
    exact hf.first (j + 1) (by omega) (by omega) record' (by simpa using hs)
  · intro hf
    refine ⟨by omega, by simpa using hf.le_length, by simpa using hf.spells, ?_⟩
    intro j hj hjk record' hs
    cases j with
    | zero => omega
    | succ j =>
      rcases Nat.eq_zero_or_pos j with rfl | hj'
      · exact h record' (by simpa using hs)
      · exact hf.first j hj' (by omega) record' (by simpa using hs)

theorem readLine_of_scan {d : Dialect} {limit : Nat} {m : Machine} {w : List Char}
    (hscan : Machine.scan d limit .empty w = .ok m)
    (hm : m.state = .startRecord ∨ m.state = .inQuoted) (line : String) :
    m.readLine d limit line = Machine.feed d limit .empty (w ++ line.toList) := by
  have hpending : m.pendingEscape = false := by
    rcases hm with hm | hm <;> simp [Machine.pendingEscape, hm]
  rw [Machine.readLine_eq_feed hpending, Machine.feed_append_of_scan hscan]

theorem not_firstSpelled_of_feed_error {d : Dialect} {limit : Nat} (hd : Regular d)
    {w : List Char} {line : String} {lines : List String} {cause : Failure}
    (h : Machine.feed d limit .empty (w ++ line.toList) = .error cause)
    (hnul : '\x00' ∉ w ++ textOf (line :: lines))
    (hlimit : (w ++ textOf (line :: lines)).length ≤ limit) {k : Nat} {record : Record} :
    ¬ FirstSpelled d w (line :: lines) (k + 1) record := by
  intro hf
  have hcut : textOf lines = textOf (lines.take k) ++ textOf (lines.drop k) := by
    simp only [textOf, ← List.flatMap_append, List.take_append_drop]
  have htext : w ++ textOf ((line :: lines).take (k + 1)) =
      w ++ line.toList ++ textOf (lines.take k) := by simp
  have hspells := htext ▸ hf.spells
  have hall : (w ++ line.toList ++ textOf (lines.take k)).Sublist
      (w ++ textOf (line :: lines)) := by
    simp [hcut]
  obtain ⟨n, hfeed, -⟩ := Machine.feed_of_spells hd hspells (fun hc => hnul (hall.subset hc))
    (Nat.le_trans hall.length_le hlimit)
  obtain ⟨m, hscan, -⟩ := Machine.feed_eq_ok.mp hfeed
  rw [Machine.scan_append] at hscan
  cases hfirst : Machine.scan d limit .empty (w ++ line.toList) with
  | error cause' => simp [hfirst] at hscan
  | ok m' =>
    -- Only a character can fail, never the end of the line behind it.
    obtain ⟨n', hn'⟩ := Machine.feed_isOk_of_scan hd hfirst
    simp [h] at hn'

namespace Cursor

/-- From the text `w` of an open record, the lines that complete it are the first that continue
`w` to a text of the grammar. -/
theorem pullCompletes_iff {r : Cursor} (hd : Regular r.dialect) (hr : r.exhausted = false)
    {lines : List String} {w : List Char} {m : Machine}
    (hscan : Machine.scan r.dialect r.limit .empty w = .ok m)
    (hm : m.state = .startRecord ∨ m.state = .inQuoted) (hnul : '\x00' ∉ w ++ textOf lines)
    (hlimit : (w ++ textOf lines).length ≤ r.limit) (n k : Nat) (record : Record) :
    r.PullCompletes m n (lines.map .ok) k record ↔ FirstSpelled r.dialect w lines k record := by
  -- On the lines still to come: each that does not complete the record joins `w`.
  induction lines generalizing w m n k with
  | nil =>
    constructor
    · intro h
      exact absurd h (not_pullCompletes_nil hr)
    · intro h
      exact absurd h.le_length (Nat.not_le_of_gt h.pos)
  | cons line lines ih =>
    cases k with
    | zero =>
      constructor
      · intro h
        exact absurd h (not_pullCompletes_zero hr)
      · intro h
        exact absurd h.pos (Nat.lt_irrefl 0)
    | succ k =>
      rw [List.map_cons, pullCompletes_ok_cons, readLine_of_scan hscan hm]
      have hline : (w ++ line.toList).Sublist (w ++ textOf (line :: lines)) := by simp
      have hspells : ∀ record', Spells r.dialect (w ++ line.toList) record' ↔ _ := fun _ =>
        (Machine.feed_iff_spells hd (fun hc => hnul (hline.subset hc))
          (Nat.le_trans hline.length_le hlimit)).symm
      cases hfeed : Machine.feed r.dialect r.limit .empty (w ++ line.toList) with
      | error cause =>
        simp only [reduceCtorEq, false_and, exists_false, false_iff]
        exact not_firstSpelled_of_feed_error hd hfeed hnul hlimit
      | ok m' =>
        simp only [hfeed, Except.ok.injEq, exists_eq_left'] at hspells ⊢
        by_cases hs : m'.state = .startRecord
        · rw [firstSpelled_one ((hspells _).mpr ⟨hs, rfl⟩), hspells]
          simp [hs]
        · -- The line end left no trace, so the next line goes on with the text read so far.
          obtain ⟨hscan', hquoted⟩ := Machine.inQuoted_of_unfinished hd hfeed hs
          rw [firstSpelled_succ fun record' h => hs ((hspells _).mp h).1]
          simp only [hs, false_and, false_or, ne_eq, not_false_eq_true, true_and]
          exact ih hscan' (.inr hquoted) (by simpa using hnul) (by simpa using hlimit) (n + 1) k

end Cursor

/-- The first request completes `record` with `k` lines exactly if `k` is the least positive number
of lines whose text the grammar derives, and `record` is what the text spells. -/
theorem completes_iff_spells {d : Dialect} (hd : Regular d) {lines : List String} {limit : Nat}
    (hnul : '\x00' ∉ textOf lines) (hlimit : (textOf lines).length ≤ limit) (k : Nat)
    (record : Record) :
    (fresh (lines.map .ok) d limit).Completes k record ↔
      0 < k ∧ k ≤ lines.length ∧ Spells d (textOf (lines.take k)) record ∧
        ∀ j, 0 < j → j < k → ∀ record', ¬ Spells d (textOf (lines.take j)) record' := by
  have hr := Cursor.pullCompletes_iff (r := .fresh (lines.map .ok) d limit) (w := []) hd rfl rfl
    (.inl rfl) hnul hlimit 0 k record
  rw [completes_iff, toCursor_fresh, Cursor.completes_fresh, hr]
  constructor
  · rintro ⟨hpos, hle, hspells, hfirst⟩
    exact ⟨hpos, hle, hspells, hfirst⟩
  · rintro ⟨hpos, hle, hspells, hfirst⟩
    exact ⟨hpos, hle, hspells, hfirst⟩

theorem regular_excel (strict : Bool) : Regular { Dialect.excel with strict := strict } where
  valid := rfl
  escape := rfl
  doubleQuote := rfl
  skipInitialSpace := rfl
  quoting := by simp [Dialect.excel]
  quote := by
    intro q hq
    cases hq
    rfl

theorem completes_iff_spells_excel :
    '\x00' ∉ textOf ["\"a\n", "\"\"b\"c,\r\n"] ∧
      Spells Dialect.excel (textOf ["\"a\n", "\"\"b\"c,\r\n"]) ["a\n\"bc", ""] ∧
      ∀ record, ¬ Spells Dialect.excel (textOf ["\"a\n"]) record := by
  have hnul : '\x00' ∉ textOf ["\"a\n", "\"\"b\"c,\r\n"] := by decide
  have h := (completes_iff_spells (regular_excel false) hnul (by decide : _ ≤ 11) 2
    ["a\n\"bc", ""]).mp rfl
  exact ⟨hnul, h.2.2.1, h.2.2.2 1 (by decide) (by decide)⟩

/-- Text behind a closing quote joins the field, though a grammar with nothing behind closing quotes
does not derive the line. -/
theorem text_joins_quoted_field :
    (fresh [.ok "\"ab\"c\n"] Dialect.excel 9).Completes 1 ["abc"] ∧
      ∀ record, ¬ Spells { Dialect.excel with strict := true } (textOf ["\"ab\"c\n"]) record := by
  refine ⟨rfl, ?_⟩
  intro record h
  obtain ⟨n, hfeed, -⟩ := Machine.feed_of_spells (regular_excel true) h (by decide)
    (by decide : _ ≤ 9)
  cases hfeed

end Tabular.Reader
