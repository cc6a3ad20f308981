import Tabular.Proofs.Reader.Invariants
import Tabular.Proofs.Reader.Requests

/-! # What the fields of a record hold

Whatever its input is, a reader answers records whose fields are free of NUL and within the limit.
The invariant is one of the machine: it holds for the open field and for the complete ones, and
every character, line and end of input keeps it.
-/
namespace Tabular.Reader

variable {d : Dialect} {limit : Nat}

structure Fits (limit : Nat) (text : List Char) : Prop where
  nul : '\x00' ∉ text
  length : text.length ≤ limit

theorem fits_nil (limit : Nat) : Fits limit [] := by
  constructor
  · simp
  · exact Nat.zero_le _

namespace Machine

structure Fitting (limit : Nat) (m : Machine) : Prop where
  fields : ∀ s ∈ m.fields, Fits limit s.toList
  field : Fits limit m.field.toList

theorem fitting_empty (limit : Nat) : Fitting limit .empty := by
  constructor
  · intro s hs
    simp at hs
  · exact fits_nil limit

variable {m n : Machine} {c : Char} {next : State}

theorem Fitting.goto (h : m.Fitting limit) (s : State) : (m.goto s).Fitting limit :=
  ⟨h.fields, h.field⟩

theorem Fitting.addThen (h : m.Fitting limit) (hc : c ≠ '\x00')
    (hn : m.addThen limit c next = .ok n) : n.Fitting limit := by
  obtain ⟨hsize, rfl⟩ := addThen_eq_ok.mp hn
  refine ⟨h.fields, ?_⟩
  rw [Array.toList_push]
  constructor
  · intro hmem
    rcases List.mem_append.mp hmem with hmem | hmem
    · exact h.field.nul hmem
    · exact hc (List.mem_singleton.mp hmem).symm
  · simpa using Nat.succ_le_of_lt hsize

theorem Fitting.close (h : m.Fitting limit) (hn : m.close next = .ok n) : n.Fitting limit := by
  obtain ⟨-, rfl⟩ := close_eq_ok.mp hn
  refine ⟨?_, fits_nil limit⟩
  intro s hs
  rcases Array.mem_push.mp hs with hs | rfl
  · exact h.fields s hs
  · rw [String.toList_ofList]
    exact h.field

theorem Fitting.step_some (h : m.Fitting limit) (hc : c ≠ '\x00')
    (hn : m.step d limit (some c) = .ok n) : n.Fitting limit := by
  rcases step_some_cases hn with ⟨next, -, rfl⟩ | ⟨next, -, hadd⟩ | ⟨-, hadd⟩ | ⟨next, -, hclose⟩
  · exact h.goto next
  · exact h.addThen hc hadd
  · have hstart : Fitting limit { m with numeric := m.numeric || d.quoting == .nonNumeric } :=
      ⟨h.fields, h.field⟩
    exact hstart.addThen hc hadd
  · exact h.close hclose

theorem Fitting.step_none (h : m.Fitting limit) (hn : m.step d limit none = .ok n) :
    n.Fitting limit := by
  rcases step_none_cases hn with hclose | ⟨-, rfl⟩ | ⟨rfl, -⟩
  · exact h.close hclose
  · exact h.goto _
  · exact h

theorem Fitting.readLine (h : m.Fitting limit) {line : String}
    (hn : m.readLine d limit line = .ok n) : n.Fitting limit :=
  readLine_keeps (fun _ _ _ hc h hn => h.step_some hc hn) (fun _ _ h hn => h.step_none hn)
    (fun _ _ h hn => resume_keeps h (fun _ => h.addThen (by decide)) hn) h hn

theorem Fitting.ending (h : m.Fitting limit) (hescape : d.escape ≠ some '\x00')
    (hn : m.ending d limit = .ok n) : n.Fitting limit := by
  obtain ⟨m', rfl | ⟨-, e, he, hadd⟩, hclose⟩ := ending_eq_ok hn
  · exact h.close hclose
  · have hnul : e ≠ '\x00' := by
      rintro rfl
      exact hescape he
    exact (h.addThen hnul hadd).close hclose

end Machine

namespace Cursor

theorem pull_fits {r : Cursor} (hescape : r.dialect.escape ≠ some '\x00') {m : Machine}
    (hm : m.Fitting r.limit) {n : Nat} {items : List Item} {record : Record}
    (h : (r.pull m n items).result = some (.ok record)) : ∀ s ∈ record, Fits r.limit s.toList := by
  fun_induction pull r m n items with
  | case1 m n =>
    obtain ⟨m', hend, rfl⟩ := exists_ending_of_finish h
    intro s hs
    exact (hm.ending hescape hend).fields s (by simpa using hs)
  | case2 m n cause rest => cases h
  | case3 m n line rest cause hline => cases h
  | case4 m n line rest m' hline hs =>
    cases h
    intro s hs
    exact (hm.readLine hline).fields s (by simpa using hs)
  | case5 m n line rest m' hline hs ih => exact ih (hm.readLine hline) h

theorem next_fits {r : Cursor} (hescape : r.dialect.escape ≠ some '\x00') {record : Record}
    (h : r.next.result = some (.ok record)) : ∀ s ∈ record, Fits r.limit s.toList := by
  unfold next at h
  split at h
  · cases h
  · exact pull_fits hescape (Machine.fitting_empty r.limit) h

end Cursor

theorem pullsOnto_of_some {r after : Reader} {answer : Except Failure Record}
    (h : r.next = ⟨some answer, after⟩) (done : Array Pull) :
    pullsOnto done r = pullsOnto (done.push ⟨some answer, after⟩) after := by
  rw [pullsOnto]
  split
  · rename_i hnext
    rw [h] at hnext
    cases hnext
    rfl
  · rename_i hnext
    rw [h] at hnext
    cases hnext

theorem pullsOnto_of_none {r after : Reader} (h : r.next = ⟨none, after⟩) (done : Array Pull) :
    pullsOnto done r = done.push ⟨none, after⟩ := by
  rw [pullsOnto]
  split
  · rename_i hnext
    rw [h] at hnext
    cases hnext
  · rename_i hnext
    rw [h] at hnext
    cases hnext
    rfl

theorem pullsOnto_eq_append (done : Array Pull) (r : Reader) :
    pullsOnto done r = done ++ pullsOnto #[] r := by
  induction hn : r.source.length using Nat.strongRecOn generalizing done r with
  | ind n ih =>
    rcases hnext : r.next with ⟨_ | answer, after⟩
    · rw [pullsOnto_of_none hnext, pullsOnto_of_none hnext]
      simp
    · have hlt := source_length_lt_of_next hnext
      rw [pullsOnto_of_some hnext, pullsOnto_of_some hnext, ih _ (by omega) _ after rfl,
        ih _ (by omega) (#[].push _) after rfl]
      simp

def Pull.record? (p : Pull) : Option Record := p.result.bind Except.toOption

/-- The records among the answers up to the end, failures left out. -/
def records (r : Reader) : List Record := r.pulls.filterMap Pull.record?

section Records

variable {r after : Reader} {record : Record}

theorem records_of_some {answer : Except Failure Record} (h : r.next = ⟨some answer, after⟩) :
    r.records = answer.toOption.toList ++ after.records := by
  simp only [records, pulls]
  rw [pullsOnto_of_some h, pullsOnto_eq_append, Array.toList_append, List.filterMap_append]
  cases answer <;> rfl

theorem records_of_none (h : r.next = ⟨none, after⟩) : r.records = [] := by
  simp only [records, pulls]
  rw [pullsOnto_of_none h]
  rfl

/-- Whatever the input is, what is read of it fits. -/
theorem fits_of_mem_records (hescape : r.dialect.escape ≠ some '\x00') (h : record ∈ r.records) :
    ∀ s ∈ record, Fits r.limit s.toList := by
  induction hn : r.source.length using Nat.strongRecOn generalizing r with
  | ind n ih =>
    have hconf := Cursor.next_configuration r.toCursor
    rw [← toCursor_next] at hconf
    obtain ⟨hdialect, hlimit⟩ := hconf
    rcases hnext : r.next with ⟨_ | answer, after⟩
    · rw [records_of_none hnext] at h
      cases h
    · rw [hnext] at hdialect hlimit
      dsimp only at hdialect hlimit
      have hlt := source_length_lt_of_next hnext
      rw [records_of_some hnext] at h
      rcases List.mem_append.mp h with hmem | hmem
      · cases answer with
        | error cause => cases hmem
        | ok first =>
          obtain rfl := List.mem_singleton.mp hmem
          apply Cursor.next_fits hescape
          rw [← result_next, hnext]
      · rw [← hlimit]
        exact ih after.source.length (by omega) (by rwa [hdialect]) hmem rfl

end Records

end Tabular.Reader
