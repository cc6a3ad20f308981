import Tabular.Proofs.Reader.Machine

/-! # What lines keep

A line is read by its start, its characters and its end, so what these three keep is kept by the
line. One such invariant is that between fields no character is left in the open one.
-/
namespace Tabular.Reader

variable {d : Dialect} {limit : Nat}

def State.isIdle : State → Bool
  | .startRecord | .startField | .afterBreak => true
  | _ => false

theorem State.IsStart.isIdle {s : State} (h : s.IsStart) : s.isIdle = true := by
  rcases h with rfl | rfl <;> rfl

theorem State.IsPlain.isIdle {s : State} (h : s.IsPlain) : s.isIdle = false := by
  rcases h with rfl | rfl <;> rfl

namespace Action

theorem isIdle_of_move {c : Char} {s next : State} (h : Acts d c s (.move next))
    (hn : next.isIdle = true) : s.isIdle = true := by
  cases h with
  | leadingBreak | furtherBreak => rfl
  | skipSpace hs => exact hs.isIdle
  | openQuotes | escapeFirst | escapeNext | escapeInQuotes | quoteInQuotes => cases hn

theorem isIdle_of_take {c b : Char} {s next : State} (h : Acts d c s (.take b next)) :
    next.isIdle = false := by
  cases h with
  | joinField hs => exact hs.isIdle
  | escapedBreak | escapedChar | joinQuotes | escapedInQuotes | doubledQuote | joinBehindQuotes =>
    rfl

end Action

namespace Machine

variable {m n : Machine}

theorem resume_keeps {P : Machine → Prop} (hm : P m)
    (hadd : ∀ next, m.addThen limit '\n' next = .ok n → P n) (h : m.resume limit = .ok n) :
    P n := by
  rcases resume_cases h with rfl | ⟨-, hbreak⟩ | ⟨-, hbreak⟩
  · exact hm
  · exact hadd _ hbreak
  · exact hadd _ hbreak

section Keeps

variable {P : Machine → Prop}
  (hchar : ∀ m n c, c ≠ '\x00' → P m → m.step d limit (some c) = .ok n → P n)
include hchar

theorem scan_keeps {text : List Char} (hm : P m) (h : m.scan d limit text = .ok n) : P n := by
  induction text generalizing m with
  | nil =>
    cases h
    exact hm
  | cons c text ih =>
    obtain ⟨hc, m₁, hstep, hrest⟩ := scan_cons_eq_ok.mp h
    exact ih (hchar m m₁ c hc hm hstep) hrest

variable (hend : ∀ m n, P m → m.step d limit none = .ok n → P n)
include hend

theorem feed_keeps {text : List Char} (hm : P m) (h : m.feed d limit text = .ok n) : P n := by
  obtain ⟨m', hscan, hlast⟩ := feed_eq_ok.mp h
  exact hend m' n (scan_keeps hchar hm hscan) hlast

theorem readLine_keeps {line : String} (hresume : ∀ m n, P m → m.resume limit = .ok n → P n)
    (hm : P m) (h : m.readLine d limit line = .ok n) : P n := by
  obtain ⟨m₁, hm₁, hfeed⟩ := readLine_eq_ok.mp h
  exact feed_keeps hchar hend (hresume m m₁ hm hm₁) hfeed

end Keeps

def Tidy (m : Machine) : Prop := m.state.isIdle = true → m.field = #[]

theorem tidy_empty : Tidy .empty := fun _ => rfl

theorem Tidy.step_some {c : Char} (hm : m.Tidy) (h : m.step d limit (some c) = .ok n) :
    n.Tidy := by
  intro hidle
  rcases step_some_cases h with ⟨next, ha, rfl⟩ | ⟨next, ha, hadd⟩ | ⟨-, hadd⟩ | ⟨next, -, hclose⟩
  · exact hm (Action.isIdle_of_move ha hidle)
  · obtain ⟨-, rfl⟩ := addThen_eq_ok.mp hadd
    cases (Action.isIdle_of_take ha).symm.trans hidle
  · obtain ⟨-, rfl⟩ := addThen_eq_ok.mp hadd
    cases hidle
  · obtain ⟨-, rfl⟩ := close_eq_ok.mp hclose
    rfl

theorem Tidy.step_none (hm : m.Tidy) (h : m.step d limit none = .ok n) : n.Tidy := by
  rcases step_none_cases h with hclose | ⟨hs, rfl⟩ | ⟨rfl, -⟩
  · obtain ⟨-, rfl⟩ := close_eq_ok.mp hclose
    exact fun _ => rfl
  · intro _
    apply hm
    rcases hs with hs | hs <;> rw [hs] <;> rfl
  · exact hm

theorem Tidy.resume (hm : m.Tidy) (h : m.resume limit = .ok n) : n.Tidy := by
  intro hidle
  rcases resume_cases h with rfl | ⟨-, hadd⟩ | ⟨-, hadd⟩
  · exact hm hidle
  · obtain ⟨-, rfl⟩ := addThen_eq_ok.mp hadd
    cases hidle
  · obtain ⟨-, rfl⟩ := addThen_eq_ok.mp hadd
    cases hidle

theorem Tidy.readLine {line : String} (hm : m.Tidy) (h : m.readLine d limit line = .ok n) :
    n.Tidy :=
  readLine_keeps (fun _ _ _ _ hm h => hm.step_some h) (fun _ _ hm h => hm.step_none h)
    (fun _ _ hm h => hm.resume h) hm h

end Machine

end Tabular.Reader
