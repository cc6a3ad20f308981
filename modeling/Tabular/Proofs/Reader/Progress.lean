import Tabular.Proofs.Reader.Invariants
import Tabular.Proofs.Reader.Requests

/-! # Every item of the source is pulled once

A record that a line leaves unfinished is open in the sense of `Machine.isOpen`, so that the end of
the source closes it and never drops it. The invariant behind this is that an unquoted field which
goes on behind an escaped line break is not empty. It follows that the answers of a reader take
the items of its source in consecutive groups, none of them empty, and that only a reader without
items left has no answer.
-/
namespace Tabular.Reader

variable {d : Dialect} {limit : Nat}

namespace Action

variable {c : Char} {s : State}

theorem not_acts_move_afterEscapedBreak : ¬ Acts d c s (.move .afterEscapedBreak) := nofun

theorem not_acts_close_afterEscapedBreak : ¬ Acts d c s (.close .afterEscapedBreak) := nofun

end Action

namespace Machine

/-- Behind an escaped line break the open field holds at least that break. -/
def Coherent (m : Machine) : Prop := m.state = .afterEscapedBreak → m.field ≠ #[]

theorem coherent_of_addThen {m n : Machine} {c : Char} {next : State}
    (h : m.addThen limit c next = .ok n) : n.Coherent := by
  obtain ⟨-, rfl⟩ := addThen_eq_ok.mp h
  exact fun _ => Array.push_ne_empty

/-- Only a character that joins the field leads behind an escaped line break. -/
theorem coherent_of_step_some {m n : Machine} {c : Char}
    (h : m.step d limit (some c) = .ok n) : n.Coherent := by
  rcases step_some_cases h with ⟨next, ha, rfl⟩ | ⟨next, -, hadd⟩ | ⟨-, hadd⟩ | ⟨next, ha, hclose⟩
  · rintro rfl
    exact absurd ha Action.not_acts_move_afterEscapedBreak
  · exact coherent_of_addThen hadd
  · exact coherent_of_addThen hadd
  · obtain ⟨-, rfl⟩ := close_eq_ok.mp hclose
    rintro rfl
    exact absurd ha Action.not_acts_close_afterEscapedBreak

theorem readLine_coherent {m n : Machine} {line : String} (hm : m.Coherent)
    (h : m.readLine d limit line = .ok n) :
    n.Coherent ∧ (n.state = .startRecord ∨ n.isOpen = true) := by
  obtain ⟨m₁, hresume, hfeed⟩ := readLine_eq_ok.mp h
  obtain ⟨m₂, hscan, hend⟩ := feed_eq_ok.mp hfeed
  have hm₁ : m₁.Coherent := resume_keeps hm (fun _ => coherent_of_addThen) hresume
  have hm₂ : m₂.Coherent :=
    scan_keeps (fun _ _ _ _ _ hstep => coherent_of_step_some hstep) hm₁ hscan
  rcases state_or_eq_of_step_none hend with hn | ⟨rfl, hn⟩
  · exact ⟨fun hs => by simp [hn] at hs, .inl hn⟩
  · refine ⟨hm₂, .inr ?_⟩
    rw [isOpen_eq]
    rcases hn with hn | hn | hn
    · simp [hn]
    · simp [hn]
    · simp [hm₂ hn]

end Machine

namespace Cursor

theorem pull_isSome (r : Cursor) (m : Machine) (n : Nat) (items : List Item) (hm : m.Coherent)
    (ho : items = [] → m.isOpen = true) : (r.pull m n items).result.isSome = true := by
  fun_induction pull r m n items with
  | case1 m n => rw [finish_eq_ending (ho rfl), Option.isSome_some]
  | case2 m n cause rest => rfl
  | case3 m n line rest cause h => rfl
  | case4 m n line rest m' h hs => rfl
  | case5 m n line rest m' h hs ih =>
    obtain ⟨hm', hopen⟩ := Machine.readLine_coherent hm h
    exact ih hm' fun _ => hopen.resolve_left hs

def Settled (r : Cursor) : Prop := r.exhausted = true → r.source = []

theorem next_settled {r : Cursor} (hr : r.Settled) : r.next.after.Settled := by
  unfold next
  split
  · exact hr
  · rename_i he
    exact pull_exhausted r (Bool.eq_false_iff.mpr he) _ _ _

theorem next_of_source_nil {r : Cursor} (hs : r.source = []) :
    r.next.result = none ∧ r.next.after.source = [] ∧ r.next.after.lineNum = r.lineNum := by
  unfold next
  split
  · exact ⟨rfl, hs, rfl⟩
  · rw [hs]
    exact ⟨rfl, rfl, rfl⟩

theorem next_of_source_ne_nil {r : Cursor} (hr : r.Settled) (hs : r.source ≠ []) :
    r.next.result.isSome = true ∧ ∃ taken, taken ≠ [] ∧ r.source = taken ++ r.next.after.source ∧
      r.next.after.lineNum = r.lineNum + lineCount taken := by
  have he : ¬ r.exhausted = true := fun h => hs (hr h)
  unfold next
  rw [if_neg he]
  obtain ⟨taken, hsource, hlines, hne⟩ := pull_takes r .empty r.lineNum r.source
  exact ⟨pull_isSome r .empty r.lineNum r.source (fun h => by cases h) (fun h => absurd h hs),
    taken, hne hs, hsource, hlines⟩

theorem advance_of_source_nil {r : Cursor} (hs : r.source = []) (k : Nat) :
    (r.advance k).source = [] ∧ (r.advance k).lineNum = r.lineNum := by
  induction k generalizing r with
  | zero => exact ⟨hs, rfl⟩
  | succ k ih =>
    obtain ⟨-, hsource, hlines⟩ := next_of_source_nil hs
    obtain ⟨hk, hlk⟩ := ih hsource
    exact ⟨hk, hlk.trans hlines⟩

/-- The answers of `r` take the items of its source group by group. -/
structure TakesGroups (r : Cursor) (groups : List (List Item)) : Prop where
  source : groups.flatten = r.source
  nonempty : ∀ group ∈ groups, group ≠ []
  answers : ∀ k, (r.answer k).isSome = true ↔ k < groups.length
  rest : ∀ k, (r.advance k).source = (groups.drop k).flatten
  lines : ∀ k, (r.advance k).lineNum = r.lineNum + lineCount (groups.take k).flatten

theorem takesGroups_nil {r : Cursor} (hs : r.source = []) : r.TakesGroups [] := by
  constructor
  · exact hs.symm
  · simp
  · intro k
    have hnone := (next_of_source_nil (advance_of_source_nil hs k).1).1
    simp [answer, hnone]
  · intro k
    simpa using (advance_of_source_nil hs k).1
  · intro k
    simpa [lineCount] using (advance_of_source_nil hs k).2

theorem takesGroups_cons {r : Cursor} {taken : List Item} {groups : List (List Item)}
    (hsome : r.next.result.isSome = true) (htaken : taken ≠ [])
    (hsource : r.source = taken ++ r.next.after.source)
    (hlines : r.next.after.lineNum = r.lineNum + lineCount taken)
    (h : r.next.after.TakesGroups groups) : r.TakesGroups (taken :: groups) := by
  constructor
  · rw [hsource, ← h.source, List.flatten_cons]
  · intro group hg
    rcases List.mem_cons.mp hg with rfl | hg
    · exact htaken
    · exact h.nonempty group hg
  · intro k
    cases k with
    | zero => simp [answer, advance, hsome]
    | succ k => simpa [answer, advance] using h.answers k
  · intro k
    cases k with
    | zero => simp [advance, hsource, h.source]
    | succ k => simpa [advance] using h.rest k
  · intro k
    cases k with
    | zero => simp [advance, lineCount]
    | succ k =>
      have := h.lines k
      simp only [advance, List.take_succ_cons, List.flatten_cons, lineCount_append]
      omega

theorem exists_takesGroups {r : Cursor} (hr : r.Settled) : ∃ groups, r.TakesGroups groups := by
  induction hn : r.source.length using Nat.strongRecOn generalizing r with
  | ind n ih =>
    by_cases hs : r.source = []
    · exact ⟨[], takesGroups_nil hs⟩
    · obtain ⟨hsome, taken, htaken, hsource, hlines⟩ := next_of_source_ne_nil hr hs
      have hlt : r.next.after.source.length < n := by
        have := congrArg List.length hsource
        have := List.length_pos_iff.mpr htaken
        simp only [List.length_append] at *
        omega
      obtain ⟨groups, h⟩ := ih _ hlt (next_settled hr) rfl
      exact ⟨taken :: groups, takesGroups_cons hsome htaken hsource hlines h⟩

end Cursor

theorem length_le_length_flatten {groups : List (List Item)} (h : ∀ group ∈ groups, group ≠ []) :
    groups.length ≤ groups.flatten.length := by
  induction groups with
  | nil => simp
  | cons group groups ih =>
    have hg := List.length_pos_iff.mpr (h group List.mem_cons_self)
    have hgs := ih fun g hm => h g (List.mem_cons_of_mem _ hm)
    simp only [List.length_cons, List.flatten_cons, List.length_append]
    omega

/-- No item is lost or pulled twice: the answers of a new reader take its source apart into
consecutive groups, each with an item of its own. After them there is no answer, no item left to
lose, and the lines counted are the lines pulled. -/
theorem answers_partition_source {source : List Item} {d : Dialect} {limit : Nat} {r : Reader}
    (h : open? source d limit = .ok r) :
    ∃ groups : List (List Item), groups.flatten = source ∧ (∀ group ∈ groups, group ≠ []) ∧
      groups.length ≤ source.length ∧ (∀ k, (r.answer k).isSome = true ↔ k < groups.length) ∧
      (∀ k, (r.advance k).source = (groups.drop k).flatten) ∧
      ∀ k, (r.advance k).lineNum = lineCount (groups.take k).flatten := by
  obtain ⟨-, rfl⟩ := open?_eq_ok.mp h
  obtain ⟨groups, hg⟩ :=
    Cursor.exists_takesGroups (r := .fresh source d limit) fun he => by cases he
  have hsource : groups.flatten = source := hg.source
  refine ⟨groups, hsource, hg.nonempty, ?_, ?_, ?_, ?_⟩
  · exact hsource ▸ length_le_length_flatten hg.nonempty
  · intro k
    rw [answer_eq]
    exact hg.answers k
  · intro k
    rw [toCursor_advance]
    exact hg.rest k
  · intro k
    rw [toCursor_advance, ← Nat.zero_add (lineCount _)]
    exact hg.lines k

theorem answers_partition_source_excel :
    let source : List Item := [.ok "\"a\n", Lines.fault "gone", .ok "b"]
    open? source Dialect.excel 8 = .ok (fresh source Dialect.excel 8) ∧
      ∃ groups : List (List Item), groups.flatten = source ∧ groups.length ≤ 3 ∧
        ((fresh source Dialect.excel 8).advance 2).lineNum = lineCount (groups.take 2).flatten := by
  intro source
  have h : open? source Dialect.excel 8 = .ok (fresh source Dialect.excel 8) := rfl
  obtain ⟨groups, hsource, -, hlength, -, -, hlines⟩ := answers_partition_source h
  exact ⟨h, groups, hsource, hlength, hlines 2⟩

end Tabular.Reader
