import Tabular.Proofs.Lines
import Tabular.Proofs.Reader.Field
import Tabular.Proofs.Reader.Requests

/-! # Records read from a text

A source cuts a text after each line feed, and the machine is told of every cut. As long as the
machine is inside quotes, or behind an escaped break, when that happens, the cuts leave no trace and
the text may be followed character by character.
-/
namespace Tabular.Reader

open Lines

variable {d : Dialect} {limit : Nat}

namespace Machine

/-- The machine reads a text and a record is open all along, at the end of each line too. -/
inductive Reads (d : Dialect) (limit : Nat) : Machine → List Char → Machine → Prop where
  | nil {m : Machine} : Reads d limit m [] m
  | cons {m m₁ m₂ : Machine} {c : Char} {text : List Char} : c ≠ '\x00' →
      m.step d limit (some c) = .ok m₁ →
      (c = '\n' → m₁.state = .inQuoted ∨ m₁.state = .afterEscapedBreak) →
      Reads d limit m₁ text m₂ → Reads d limit m (c :: text) m₂

variable {m m₁ m₂ : Machine} {c : Char} {first second : List Char}

namespace Reads

theorem single (hnul : c ≠ '\x00') (h : m.step d limit (some c) = .ok m₁)
    (hc : c = '\n' → m₁.state = .inQuoted ∨ m₁.state = .afterEscapedBreak) :
    Reads d limit m [c] m₁ :=
  .cons hnul h hc .nil

theorem append (h₁ : Reads d limit m first m₁) (h₂ : Reads d limit m₁ second m₂) :
    Reads d limit m (first ++ second) m₂ := by
  induction h₁ with
  | nil => exact h₂
  | cons hnul hstep hc _ ih => exact .cons hnul hstep hc (ih h₂)

theorem of_startField (hc : isBreak c = false)
    (h : Reads d limit (.of .startField #[] #[] false) (c :: first) m₁) :
    Reads d limit .empty (c :: first) m₁ := by
  cases h with
  | cons hnul hstep hline hrest =>
    have hstart : step d limit .empty (some c) = _ := step_startRecord (m := .empty) hc
    exact .cons hnul (hstart.trans hstep) hline hrest

end Reads

end Machine

namespace Cursor

def afterLine (r : Cursor) (n : Nat) (rest : List Item) : Except Failure Machine → Pull
  | .error cause => ⟨some (.error cause), { r with source := rest, lineNum := n + 1 }⟩
  | .ok m =>
    if m.state = .startRecord then
      ⟨some (.ok m.fields.toList), { r with source := rest, lineNum := n + 1 }⟩
    else r.pull m (n + 1) rest

theorem afterLine_of_open {m : Machine} (hm : m.state ≠ .startRecord) (r : Cursor) (n : Nat)
    (rest : List Item) : r.afterLine n rest (.ok m) = r.pull m (n + 1) rest :=
  if_neg hm

theorem pull_ok_cons (r : Cursor) (m : Machine) (n : Nat) (line : String) (rest : List Item) :
    r.pull m n (.ok line :: rest) = r.afterLine n rest (m.readLine r.dialect r.limit line) := by
  cases h : m.readLine r.dialect r.limit line <;> simp only [pull, afterLine, h]

/-- Reading on in the middle of a line, over as many lines as the text has. -/
theorem afterLine_of_reads {r : Cursor} {m m₁ : Machine} {text : List Char}
    (h : m.Reads r.dialect r.limit text m₁) {rest line₁ : List Char} {lines₁ : List (List Char)}
    (hrest : splitText rest = line₁ :: lines₁) (n : Nat) {line : List Char}
    {lines : List (List Char)} (hsplit : splitText (text ++ rest) = line :: lines) :
    r.afterLine n (lines.map fun l => .ok (String.ofList l)) (m.feed r.dialect r.limit line) =
      r.afterLine (n + text.count '\n') (lines₁.map fun l => .ok (String.ofList l))
        (m₁.feed r.dialect r.limit line₁) := by
  induction h generalizing n line lines with
  | nil =>
    rw [List.nil_append, hrest] at hsplit
    cases hsplit
    rfl
  | @cons m m' m₁ c text hnul hstep hline _ ih =>
    obtain ⟨line', lines', hmore⟩ := exists_splitText_append text hrest
    by_cases hc : c = '\n'
    · -- The line ends here, and the open machine takes the next one as it is.
      subst hc
      rw [List.cons_append, splitText_lineFeed_cons, hmore] at hsplit
      cases hsplit
      have hopen := hline rfl
      have hstate : m'.state ≠ .startRecord := by
        rcases hopen with hs | hs <;> simp [hs]
      have hpending : m'.pendingEscape = false := by
        rcases hopen with hs | hs <;> simp [Machine.pendingEscape, hs]
      have hcount : n + 1 + text.count '\n' = n + ('\n' :: text).count '\n' := by
        rw [List.count_cons_self]
        omega
      rw [Machine.feed_cons_of_step hnul hstep, Machine.feed_nil, Machine.step_none_of_open hopen,
        afterLine_of_open hstate, List.map_cons, pull_ok_cons, Machine.readLine_eq_feed hpending,
        String.toList_ofList, ih (n + 1) hmore, hcount]
    · rw [List.cons_append, splitText_cons_of_ne hc hmore] at hsplit
      cases hsplit
      rw [Machine.feed_cons_of_step hnul hstep, ih n hmore, List.count_cons_of_ne hc]

theorem pull_append_of_reads {r : Cursor} {m₁ : Machine} {text : List Char}
    (h : Machine.Reads r.dialect r.limit .empty text m₁) {rest line₁ : List Char}
    {lines₁ : List (List Char)} (hrest : splitText rest = line₁ :: lines₁) (n : Nat) :
    r.pull .empty n (itemsOf (text ++ rest)) =
      r.afterLine (n + text.count '\n') (lines₁.map fun l => .ok (String.ofList l))
        (m₁.feed r.dialect r.limit line₁) := by
  obtain ⟨line, lines, hsplit⟩ := exists_splitText_append text hrest
  rw [itemsOf, hsplit, List.map_cons, pull_ok_cons, Machine.readLine_eq_feed rfl,
    String.toList_ofList]
  exact afterLine_of_reads h hrest n hsplit

/-- A record is complete behind the first line feed that ends it. -/
theorem pull_of_reads {r : Cursor} {m₁ m₂ m₃ : Machine} {text : List Char}
    (h : Machine.Reads r.dialect r.limit .empty text m₁)
    (hbreak : m₁.step r.dialect r.limit (some '\n') = .ok m₂)
    (hend : m₂.step r.dialect r.limit none = .ok m₃) (hdone : m₃.state = .startRecord) (n : Nat)
    (rest : List Char) :
    r.pull .empty n (itemsOf (text ++ '\n' :: rest)) =
      ⟨some (.ok m₃.fields.toList),
        { r with source := itemsOf rest, lineNum := n + text.count '\n' + 1 }⟩ := by
  rw [pull_append_of_reads h (splitText_lineFeed_cons rest) n,
    Machine.feed_cons_of_step (by decide) hbreak, Machine.feed_nil, hend]
  simp only [afterLine, hdone, if_true]
  rfl

theorem pull_of_reads_refused {r : Cursor} {m₁ : Machine} {text : List Char}
    (h : Machine.Reads r.dialect r.limit .empty text m₁) {c : Char} (hnul : c ≠ '\x00')
    {cause : Failure} (hc : m₁.step r.dialect r.limit (some c) = .error cause) (n : Nat)
    (rest : List Char) :
    (r.pull .empty n (itemsOf (text ++ c :: rest))).result = some (.error cause) := by
  obtain ⟨line, lines, hsplit⟩ := exists_splitText_cons c rest
  have hfeed : m₁.feed r.dialect r.limit (c :: line) = .error cause := by
    rw [Machine.feed_cons m₁ hnul, hc]
    rfl
  rw [pull_append_of_reads h hsplit n, hfeed]
  rfl

end Cursor

end Tabular.Reader
