import Tabular.Keyed.Reader
import Tabular.Proofs.Reader.Ending

/-! # Rows hold the records

A keyed reader is described over what its reader has still to answer. The first record names the
fields unless they are known, records without fields are passed over, failures are answered where
they stand, and every other record is in its row as a whole: each name has the value at its last
place among the names, and the values behind the last name are left over.
-/
namespace Tabular

namespace KeyedRow

structure Holds (row : KeyedRow) (filler : String) (names : List String) (record : Record) :
    Prop where
  keys : row.fields.keys = names.eraseDups
  /-- The last place of a name among the names counts. -/
  values : ∀ j name, names[j]? = some name → name ∉ names.drop (j + 1) →
    row.get? name = some (record[j]?.getD filler)
  rest : row.rest = record.drop names.length
  whole : names.Nodup →
    (names.take (min record.length names.length)).map row.get? ++ row.rest.map some =
      record.map some

def give (filler : String) (row : KeyedRow) (name : String) : KeyedRow :=
  ⟨row.fields.insert name (row.rest.headD filler), row.rest.tail⟩

theorem assign_eq_foldl (filler : String) (names : List String) (record : Record) :
    assign filler names record = names.foldl (give filler) ⟨{}, record⟩ := rfl

variable {filler name : String} {names : List String}

theorem keys_foldl_give (row : KeyedRow) (done : List String)
    (h : row.fields.keys = done.eraseDups) :
    (names.foldl (give filler) row).fields.keys = (done ++ names).eraseDups := by
  induction names generalizing row done with
  | nil => simpa using h
  | cons name names ih =>
    have hgiven : (row.give filler name).fields.keys = (done ++ [name]).eraseDups := by
      rw [give, OrderedMap.keys_insert, h, List.eraseDups_append]
      by_cases hname : name ∈ done
      · simp [hname, List.removeAll]
      · simp [hname, List.removeAll, List.eraseDups_cons]
    rw [List.foldl_cons, ih _ _ hgiven, List.append_assoc, List.singleton_append]

theorem rest_foldl_give (row : KeyedRow) :
    (names.foldl (give filler) row).rest = row.rest.drop names.length := by
  induction names generalizing row with
  | nil => rfl
  | cons name names ih =>
    rw [List.foldl_cons, ih, List.length_cons, ← List.drop_tail, give]

theorem get?_foldl_give_of_not_mem (row : KeyedRow) (h : name ∉ names) :
    (names.foldl (give filler) row).get? name = row.get? name := by
  induction names generalizing row with
  | nil => rfl
  | cons first names ih =>
    obtain ⟨hne, hmem⟩ : name ≠ first ∧ name ∉ names := by simpa using h
    rw [List.foldl_cons, ih _ hmem]
    exact OrderedMap.get?_insert_of_ne _ _ hne

theorem get?_foldl_give (row : KeyedRow) {j : Nat} (hj : names[j]? = some name)
    (hlast : name ∉ names.drop (j + 1)) :
    (names.foldl (give filler) row).get? name = some (row.rest[j]?.getD filler) := by
  induction names generalizing row j with
  | nil => cases hj
  | cons first names ih =>
    rw [List.foldl_cons]
    cases j with
    | zero =>
      obtain rfl : first = name := Option.some.inj hj
      have hmem : first ∉ names := hlast
      rw [get?_foldl_give_of_not_mem _ hmem, ← List.head?_eq_getElem?, ← List.headD_eq_head?_getD]
      exact OrderedMap.get?_insert_self _ _ _
    | succ j =>
      rw [ih _ hj hlast, ← List.getElem?_tail]
      rfl

theorem map_get?_of_nodup {row : KeyedRow} {record : Record}
    (hvalues : ∀ j name, names[j]? = some name → name ∉ names.drop (j + 1) →
      row.get? name = some (record[j]?.getD filler)) (hnames : names.Nodup) :
    (names.take (min record.length names.length)).map row.get? =
      (record.take names.length).map some := by
  apply List.ext_getElem?
  intro j
  by_cases hj : j < min record.length names.length
  · have hrecord : j < record.length := by omega
    have hname : j < names.length := by omega
    have hlast : names[j] ∉ names.drop (j + 1) := by
      intro hmem
      obtain ⟨i, hi⟩ := List.mem_iff_getElem?.mp hmem
      rw [List.getElem?_drop, ← List.getElem?_eq_getElem hname] at hi
      have hsame := (List.getElem?_inj hname hnames).mp hi.symm
      omega
    have hvalue := hvalues j names[j] (List.getElem?_eq_getElem hname) hlast
    rw [List.getElem?_map, List.getElem?_map, List.getElem?_take_of_lt hj,
      List.getElem?_take_of_lt hname, List.getElem?_eq_getElem hname, Option.map_some, hvalue,
      List.getElem?_eq_getElem hrecord]
    rfl
  · rw [List.getElem?_eq_none (by simp; omega), List.getElem?_eq_none (by simp; omega)]

theorem holds_assign (filler : String) (names : List String) (record : Record) :
    (assign filler names record).Holds filler names record := by
  have hvalues : ∀ j name, names[j]? = some name → name ∉ names.drop (j + 1) →
      (assign filler names record).get? name = some (record[j]?.getD filler) := by
    intro j name hj hlast
    rw [assign_eq_foldl, get?_foldl_give _ hj hlast]
  have hrest : (assign filler names record).rest = record.drop names.length := by
    rw [assign_eq_foldl, rest_foldl_give]
  constructor
  · rw [assign_eq_foldl]
    exact keys_foldl_give ⟨{}, record⟩ [] rfl
  · exact hvalues
  · exact hrest
  · intro hnames
    rw [map_get?_of_nodup hvalues hnames, hrest, ← List.map_append, List.take_append_drop]

example : assign "-" ["a", "b", "a"] ["1", "2"] = ⟨⟨[("a", "-"), ("b", "2")]⟩, []⟩ := by decide

end KeyedRow

namespace Reader

namespace Cursor

theorem exhausted_of_pull_none {r : Cursor} {m : Machine} {n : Nat} {items : List Item}
    (h : (r.pull m n items).result = none) : (r.pull m n items).after.exhausted = true := by
  fun_induction pull r m n items with
  | case1 m n => rfl
  | case2 m n cause rest => cases h
  | case3 m n line rest cause hline => cases h
  | case4 m n line rest m' hline hs => cases h
  | case5 m n line rest m' hline hs ih => exact ih h

theorem exhausted_of_next_none {r : Cursor} (h : r.next.result = none) :
    r.next.after.exhausted = true := by
  unfold next at h ⊢
  by_cases he : r.exhausted = true
  · rwa [if_pos he]
  · rw [if_neg he] at h ⊢
    exact exhausted_of_pull_none h

end Cursor

theorem results_after_none {r after : Reader} (h : r.next = ⟨none, after⟩) :
    after.results = [] := by
  have hexhausted : r.next.after.exhausted = true := by
    rw [toCursor_next]
    exact Cursor.exhausted_of_next_none (by rw [← result_next, h])
  rw [h] at hexhausted
  have hagain : after.next = ⟨none, after⟩ := by rw [next, if_pos hexhausted]
  exact results_of_none hagain

/-- Blank records are passed over, up to an answer that is none or up to the end. -/
theorem nextNonBlank_cases (r : Reader) :
    ∃ blanks, (∃ answer after, r.nextNonBlank = ⟨some answer, after⟩ ∧ answer ≠ .ok [] ∧
        r.results = List.replicate blanks (.ok []) ++ answer :: after.results) ∨
      ∃ after, r.nextNonBlank = ⟨none, after⟩ ∧ after.results = [] ∧
        r.results = List.replicate blanks (.ok []) := by
  fun_induction nextNonBlank r with
  | case1 r next hr ih =>
    have hresults := results_of_some hr
    obtain ⟨blanks, ⟨answer, after, hnext, hne, hlater⟩ | ⟨after, hnext, hend, hlater⟩⟩ := ih
    · refine ⟨blanks + 1, .inl ⟨answer, after, hnext, hne, ?_⟩⟩
      rw [hresults, hlater, List.replicate_succ, List.cons_append]
    · refine ⟨blanks + 1, .inr ⟨after, hnext, hend, ?_⟩⟩
      rw [hresults, hlater, List.replicate_succ]
  | case2 r hr =>
    rcases hnext : r.next with ⟨_ | answer, after⟩
    · exact ⟨0, .inr ⟨after, rfl, results_after_none hnext, results_of_none hnext⟩⟩
    · refine ⟨0, .inl ⟨answer, after, rfl, ?_, results_of_some hnext⟩⟩
      rintro rfl
      exact hr after hnext

end Reader

namespace KeyedReader

/-- The names, if they are known, and what the reader has still to answer. -/
structure Outlook where
  names : Option (List String)
  answers : List (Except Failure Record)

def outlook (k : KeyedReader) : Outlook := ⟨k.names, k.reader.results⟩

inductive Request where
  | setNames (names : List String)
  | fieldNames
  | next

inductive Reply where
  | set
  | names (answer : Except Failure (List String))
  | row (answer : Option (Except Failure KeyedRow))

def serve (k : KeyedReader) : Request → Reply × KeyedReader
  | .setNames names => (.set, k.setNames names)
  | .fieldNames => (.names k.fieldNames.result, k.fieldNames.after)
  | .next => (.row k.next.result, k.next.after)

def run (k : KeyedReader) : List Request → List Reply × KeyedReader
  | [] => ([], k)
  | request :: requests =>
    let served := k.serve request
    let later := served.2.run requests
    (served.1 :: later.1, later.2)

inductive Step (filler : String) : Outlook → Request → Reply → Outlook → Prop where
  | setNames (before names answers) :
      Step filler ⟨before, answers⟩ (.setNames names) .set ⟨some names, answers⟩
  | known (names answers) :
      Step filler ⟨some names, answers⟩ .fieldNames (.names (.ok names)) ⟨some names, answers⟩
  | header (names answers) :
      Step filler ⟨none, .ok names :: answers⟩ .fieldNames (.names (.ok names))
        ⟨some names, answers⟩
  | headerFails (cause answers) :
      Step filler ⟨none, .error cause :: answers⟩ .fieldNames (.names (.error cause))
        ⟨none, answers⟩
  | headerMissing : Step filler ⟨none, []⟩ .fieldNames (.names (.ok [])) ⟨some [], []⟩
  | row (names answers) (blanks : Nat) {record : Record} {row : KeyedRow} :
      record ≠ [] → row.Holds filler names record →
      Step filler ⟨some names, List.replicate blanks (.ok []) ++ .ok record :: answers⟩ .next
        (.row (some (.ok row))) ⟨some names, answers⟩
  | failure (names answers cause) (blanks : Nat) :
      Step filler ⟨some names, List.replicate blanks (.ok []) ++ .error cause :: answers⟩ .next
        (.row (some (.error cause))) ⟨some names, answers⟩
  | ended (names) (blanks : Nat) :
      Step filler ⟨some names, List.replicate blanks (.ok [])⟩ .next (.row none) ⟨some names, []⟩
  | afterHeader {names answers reply after} :
      Step filler ⟨some names, answers⟩ .next reply after →
      Step filler ⟨none, .ok names :: answers⟩ .next reply after
  | afterHeaderFails (cause answers) :
      Step filler ⟨none, .error cause :: answers⟩ .next (.row (some (.error cause)))
        ⟨none, answers⟩
  | afterHeaderMissing {reply after} :
      Step filler ⟨some [], []⟩ .next reply after → Step filler ⟨none, []⟩ .next reply after

inductive Steps (filler : String) : Outlook → List Request → List Reply → Outlook → Prop where
  | nil (o) : Steps filler o [] [] o
  | cons {o o' o'' request reply requests replies} : Step filler o request reply o' →
      Steps filler o' requests replies o'' →
      Steps filler o (request :: requests) (reply :: replies) o''

variable {k : KeyedReader} {names : List String}

theorem step_next_of_names (hk : k.names = some names) :
    Step k.filler ⟨some names, k.reader.results⟩ .next (.row k.next.result)
      k.next.after.outlook := by
  have hnames : k.fieldNames = .done names k := by simp [fieldNames, hk]
  obtain ⟨blanks, ⟨answer, after, hnext, hne, hanswers⟩ | ⟨after, hnext, hend, hanswers⟩⟩ :=
    k.reader.nextNonBlank_cases
  · rw [hanswers]
    cases answer with
    | error cause =>
      have hrow : k.next = ⟨some (.error cause), { k with reader := after }⟩ := by
        simp [next, hnames, Outcome.done, hnext]
      rw [hrow, outlook, hk]
      exact .failure names _ cause blanks
    | ok record =>
      have hrow : k.next =
          ⟨some (.ok (.assign k.filler names record)), { k with reader := after }⟩ := by
        simp [next, hnames, Outcome.done, hnext]
      rw [hrow, outlook, hk]
      have hrecord : record ≠ [] := fun h => hne (congrArg Except.ok h)
      exact .row names _ blanks hrecord (KeyedRow.holds_assign _ _ _)
  · have hrow : k.next = ⟨none, { k with reader := after }⟩ := by
      simp [next, hnames, Outcome.done, hnext]
    rw [hrow, hanswers, outlook, hk, hend]
    exact .ended names blanks

theorem next_of_fieldNames {k' : KeyedReader} (h : k.fieldNames = .done names k')
    (hk' : k'.names = some names) (hfiller : k'.filler = k.filler) : k.next = k'.next := by
  have hagain : k'.fieldNames = .done names k' := by simp [fieldNames, hk']
  simp only [next, h, hagain, Outcome.done, hfiller]

theorem step_next (k : KeyedReader) :
    Step k.filler k.outlook .next (.row k.next.result) k.next.after.outlook := by
  cases hk : k.names with
  | some names =>
    rw [outlook, hk]
    exact step_next_of_names hk
  | none =>
    rcases hr : k.reader.next with ⟨_ | cause | names, after⟩
    · have hnames : k.fieldNames = .done [] { k with reader := after, names := some [] } := by
        simp [fieldNames, hk, hr, setNames]
      have hlater := step_next_of_names (k := { k with reader := after, names := some [] }) rfl
      rw [Reader.results_after_none hr, ← next_of_fieldNames hnames rfl rfl] at hlater
      rw [outlook, hk, Reader.results_of_none hr]
      exact .afterHeaderMissing hlater
    · have hnext : k.next = ⟨some (.error cause), { k with reader := after }⟩ := by
        simp [next, fieldNames, hk, hr, Outcome.fail]
      rw [hnext, outlook, outlook, hk, Reader.results_of_some hr]
      exact .afterHeaderFails cause _
    · have hnames : k.fieldNames = .done names { k with reader := after, names := some names } := by
        simp [fieldNames, hk, hr, setNames]
      have hlater := step_next_of_names (k := { k with reader := after, names := some names }) rfl
      rw [← next_of_fieldNames hnames rfl rfl] at hlater
      rw [outlook, hk, Reader.results_of_some hr]
      exact .afterHeader hlater

theorem step_fieldNames (k : KeyedReader) :
    Step k.filler k.outlook .fieldNames (.names k.fieldNames.result)
      k.fieldNames.after.outlook := by
  cases hk : k.names with
  | some names =>
    have hnames : k.fieldNames = .done names k := by simp [fieldNames, hk]
    rw [hnames]
    simp only [Outcome.done, outlook, hk]
    exact .known names _
  | none =>
    rcases hr : k.reader.next with ⟨_ | cause | names, after⟩
    · simp only [fieldNames, hk, hr, Outcome.done, setNames, outlook, Reader.results_of_none hr,
        Reader.results_after_none hr]
      exact .headerMissing
    · simp only [fieldNames, hk, hr, Outcome.fail, outlook, Reader.results_of_some hr]
      exact .headerFails cause _
    · simp only [fieldNames, hk, hr, Outcome.done, setNames, outlook, Reader.results_of_some hr]
      exact .header names _

theorem step_serve (k : KeyedReader) (request : Request) :
    Step k.filler k.outlook request (k.serve request).1 (k.serve request).2.outlook := by
  cases request with
  | setNames names => exact .setNames k.names names _
  | fieldNames => exact step_fieldNames k
  | next => exact step_next k

theorem filler_fieldNames (k : KeyedReader) : k.fieldNames.after.filler = k.filler := by
  unfold fieldNames
  split
  · rfl
  · dsimp only
    split <;> rfl

theorem filler_serve (k : KeyedReader) (request : Request) :
    (k.serve request).2.filler = k.filler := by
  cases request with
  | setNames names => rfl
  | fieldNames => exact filler_fieldNames k
  | next =>
    refine Eq.trans ?_ (filler_fieldNames k)
    simp only [serve, next]
    repeat' split
    all_goals rfl

/-- Whatever is asked of a keyed reader, in whatever state it is, every answer is right for what its
reader had still to answer then, and leaves the answers behind it to the next request. -/
theorem rows_hold_records (k : KeyedReader) (requests : List Request) :
    Steps k.filler k.outlook requests (k.run requests).1 (k.run requests).2.outlook := by
  induction requests generalizing k with
  | nil => exact .nil _
  | cons request requests ih =>
    have hlater := ih (k.serve request).2
    rw [filler_serve] at hlater
    exact .cons (step_serve k request) hlater

end KeyedReader

end Tabular
