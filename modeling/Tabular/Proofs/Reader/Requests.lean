import Tabular.Proofs.Reader.Machine
import Tabular.Reader

/-! # Requests for records

A reader answers one request after another. Each request takes items off the source, and a record is
completed by the last line that it takes, unless the end of the source closes it.

`Cursor.next` is a request of a reader that keeps no machine: every record starts from an empty one.
A reader does keep its machine, and a failure may leave it in the middle of anything. That this
makes no difference is `next_forget`: but for the machine, a request of the reader is one of its
cursor.
-/
namespace Tabular.Reader

def finish (d : Dialect) (limit : Nat) (m : Machine) : Option (Except Failure Record) :=
  lastAnswer (m.finish d limit)

section Finish

variable {d : Dialect} {limit : Nat} {m : Machine}

theorem finish_of_not_isOpen (hm : m.isOpen = false) : finish d limit m = none := by
  rw [finish, Machine.finish_of_not_isOpen hm, lastAnswer]

theorem finish_eq_ending (hm : m.isOpen = true) :
    finish d limit m = some (if d.strict then .error .unexpectedEnd
      else (m.ending d limit).map fun m => m.fields.toList) := by
  cases hd : d.strict with
  | true => rw [finish, Machine.finish_of_strict hm hd, lastAnswer, if_pos rfl]
  | false =>
    rw [finish, Machine.finish_of_isOpen hm hd]
    cases m.ending d limit <;> rfl

theorem exists_ending_of_finish {record : Record} (h : finish d limit m = some (.ok record)) :
    ∃ n, m.ending d limit = .ok n ∧ n.fields.toList = record := by
  cases hm : m.isOpen with
  | false =>
    rw [finish_of_not_isOpen hm] at h
    cases h
  | true =>
    rw [finish_eq_ending hm] at h
    cases hs : d.strict with
    | true => simp [hs] at h
    | false =>
      cases hend : m.ending d limit with
      | error cause => simp [hs, hend, Except.map] at h
      | ok n => exact ⟨n, rfl, by simpa [hs, hend, Except.map] using h⟩

end Finish

namespace Cursor

structure Pull where
  result : Option (Except Failure Record)
  after : Cursor

def pull (r : Cursor) (m : Machine) (lineNum : Nat) : List Item → Pull
  | [] =>
    ⟨finish r.dialect r.limit m, { r with source := [], lineNum := lineNum, exhausted := true }⟩
  | .error cause :: rest => ⟨some (.error cause), { r with source := rest, lineNum := lineNum }⟩
  | .ok line :: rest =>
    match m.readLine r.dialect r.limit line with
    | .error cause => ⟨some (.error cause), { r with source := rest, lineNum := lineNum + 1 }⟩
    | .ok m =>
      if m.state = .startRecord then
        ⟨some (.ok m.fields.toList), { r with source := rest, lineNum := lineNum + 1 }⟩
      else pull r m (lineNum + 1) rest

def next (r : Cursor) : Pull :=
  if r.exhausted then ⟨none, r⟩ else r.pull .empty r.lineNum r.source

def advance (r : Cursor) : Nat → Cursor
  | 0 => r
  | k + 1 => r.next.after.advance k

def answer (r : Cursor) (k : Nat) : Option (Except Failure Record) := (r.advance k).next.result

theorem answer_succ (r : Cursor) (k : Nat) : r.answer (k + 1) = r.next.after.answer k := rfl

def fresh (source : List Item) (d : Dialect) (limit : Nat) : Cursor :=
  { source := source, dialect := d, limit := limit }

theorem pull_with (r : Cursor) (source : List Item) (lineNum : Nat) (m : Machine) (n : Nat)
    (items : List Item) :
    ({ r with source := source, lineNum := lineNum } : Cursor).pull m n items =
      r.pull m n items := by
  induction items generalizing m n with
  | nil => rfl
  | cons item items ih =>
    cases item with
    | error cause => rfl
    | ok line =>
      simp only [pull]
      split
      · rfl
      · split
        · rfl
        · exact ih _ _

end Cursor

def advance (r : Reader) : Nat → Reader
  | 0 => r
  | k + 1 => r.next.after.advance k

def answer (r : Reader) (k : Nat) : Option (Except Failure Record) := (r.advance k).next.result

def fresh (source : List Item) (d : Dialect) (limit : Nat) : Reader :=
  { source := source, dialect := d, limit := limit }

@[simp] theorem toCursor_fresh (source : List Item) (d : Dialect) (limit : Nat) :
    (fresh source d limit).toCursor = .fresh source d limit := rfl

theorem open?_eq_ok {source : List Item} {d : Dialect} {limit : Nat} {r : Reader} :
    open? source d limit = .ok r ↔ d.validate = .ok () ∧ r = fresh source d limit := by
  unfold open?
  cases hd : d.validate with
  | error cause => simp
  | ok =>
    simp only [Except.ok.injEq, true_and]
    exact eq_comm

def Pull.forget (p : Pull) : Cursor.Pull := ⟨p.result, p.after.toCursor⟩

theorem Machine.reset_eq (m : Machine) : m.reset = .empty := rfl

theorem complete_forget (r : Reader) (items : List Item) :
    (r.complete items).forget = r.toCursor.pull r.machine r.lineNum items := by
  induction items generalizing r with
  | nil => rfl
  | cons item items ih =>
    cases item with
    | error cause => rfl
    | ok line =>
      have hread : r.machine.readLine r.dialect r.limit line =
          (r.machine.receiveLine r.dialect r.limit line).toExcept := rfl
      rw [complete, Cursor.pull, hread]
      rcases r.machine.receiveLine r.dialect r.limit line with ⟨cause | _, m⟩
      · rfl
      · by_cases hs : m.state = .startRecord
        · simp only [hs, if_true, Outcome.toExcept, Except.map]
          rfl
        · simp only [hs, if_false, Outcome.toExcept, Except.map]
          exact (ih _).trans (Cursor.pull_with r.toCursor items (r.lineNum + 1) m _ items)

/-- A request finds an empty machine, whatever the one before has left. -/
theorem next_forget (r : Reader) : r.next.forget = r.toCursor.next := by
  unfold next Cursor.next
  by_cases he : r.exhausted = true
  · rw [if_pos he, if_pos he]
    rfl
  · rw [if_neg he, if_neg he, complete_forget, reset, Machine.reset_eq]

theorem result_next (r : Reader) : r.next.result = r.toCursor.next.result :=
  congrArg Cursor.Pull.result r.next_forget

@[simp] theorem toCursor_next (r : Reader) : r.next.after.toCursor = r.toCursor.next.after :=
  congrArg Cursor.Pull.after r.next_forget

@[simp] theorem toCursor_advance (r : Reader) (k : Nat) :
    (r.advance k).toCursor = r.toCursor.advance k := by
  induction k generalizing r with
  | zero => rfl
  | succ k ih => rw [advance, ih, toCursor_next, Cursor.advance]

theorem answer_eq (r : Reader) (k : Nat) : r.answer k = r.toCursor.answer k := by
  rw [answer, result_next, toCursor_advance, Cursor.answer]

def lineCount (items : List Item) : Nat := items.countP Except.isOk

theorem lineCount_append (first second : List Item) :
    lineCount (first ++ second) = lineCount first + lineCount second :=
  List.countP_append

namespace Cursor

theorem pull_takes (r : Cursor) (m : Machine) (n : Nat) (items : List Item) :
    ∃ taken, items = taken ++ (r.pull m n items).after.source ∧
      (r.pull m n items).after.lineNum = n + lineCount taken ∧ (items ≠ [] → taken ≠ []) := by
  fun_induction pull r m n items with
  | case1 m n => exact ⟨[], rfl, rfl, fun h => absurd rfl h⟩
  | case2 m n cause rest => exact ⟨[.error cause], rfl, rfl, fun _ => List.cons_ne_nil _ _⟩
  | case3 m n line rest cause h => exact ⟨[.ok line], rfl, rfl, fun _ => List.cons_ne_nil _ _⟩
  | case4 m n line rest m' h hs => exact ⟨[.ok line], rfl, rfl, fun _ => List.cons_ne_nil _ _⟩
  | case5 m n line rest m' h hs ih =>
    obtain ⟨taken, hrest, hlines, -⟩ := ih
    refine ⟨.ok line :: taken, congrArg (List.cons _) hrest, ?_, fun _ => List.cons_ne_nil _ _⟩
    rw [hlines, ← List.singleton_append, lineCount_append]
    have : lineCount [Except.ok line] = 1 := rfl
    omega

theorem pull_exhausted (r : Cursor) (hr : r.exhausted = false) (m : Machine) (n : Nat)
    (items : List Item) :
    (r.pull m n items).after.exhausted = true → (r.pull m n items).after.source = [] := by
  fun_induction pull r m n items with
  | case1 m n => exact fun _ => rfl
  | case2 m n cause rest => simp [hr]
  | case3 m n line rest cause h => simp [hr]
  | case4 m n line rest m' h hs => simp [hr]
  | case5 m n line rest m' h hs ih => exact ih

theorem pull_configuration (r : Cursor) (m : Machine) (n : Nat) (items : List Item) :
    (r.pull m n items).after.dialect = r.dialect ∧ (r.pull m n items).after.limit = r.limit := by
  fun_induction pull r m n items with
  | case1 m n => exact ⟨rfl, rfl⟩
  | case2 m n cause rest => exact ⟨rfl, rfl⟩
  | case3 m n line rest cause h => exact ⟨rfl, rfl⟩
  | case4 m n line rest m' h hs => exact ⟨rfl, rfl⟩
  | case5 m n line rest m' h hs ih => exact ih

theorem next_configuration (r : Cursor) :
    r.next.after.dialect = r.dialect ∧ r.next.after.limit = r.limit := by
  unfold next
  split
  · exact ⟨rfl, rfl⟩
  · exact pull_configuration r .empty r.lineNum r.source

/-- From machine `m`, after `n` lines, the first `k` items are lines that complete the record. -/
def PullCompletes (r : Cursor) (m : Machine) (n : Nat) (items : List Item) (k : Nat)
    (record : Record) : Prop :=
  r.pull m n items = ⟨some (.ok record), { r with source := items.drop k, lineNum := n + k }⟩

def Completes (r : Cursor) (k : Nat) (record : Record) : Prop :=
  r.next = ⟨some (.ok record), { r with source := r.source.drop k, lineNum := r.lineNum + k }⟩

variable {r : Cursor} {m : Machine} {n k : Nat} {record : Record}

theorem completes_fresh {source : List Item} {d : Dialect} {limit : Nat} :
    (fresh source d limit).Completes k record ↔
      (fresh source d limit).PullCompletes .empty 0 source k record := Iff.rfl

theorem not_pullCompletes_nil (hr : r.exhausted = false) : ¬ r.PullCompletes m n [] k record := by
  intro h
  have := congrArg (fun p => p.after.exhausted) h
  simp [pull, hr] at this

theorem not_pullCompletes_zero (hr : r.exhausted = false) {items : List Item} :
    ¬ r.PullCompletes m n items 0 record := by
  intro h
  obtain ⟨taken, hsource, -, hne⟩ := pull_takes r m n items
  rw [h] at hsource
  have ht : taken = [] := by
    have := congrArg List.length hsource
    simpa using this
  by_cases hi : items = []
  · subst hi
    exact not_pullCompletes_nil hr h
  · exact hne hi ht

theorem pullCompletes_ok_cons {line : String} {items : List Item} :
    r.PullCompletes m n (.ok line :: items) (k + 1) record ↔
      ∃ m', m.readLine r.dialect r.limit line = .ok m' ∧
        (m'.state = .startRecord ∧ k = 0 ∧ m'.fields.toList = record ∨
          m'.state ≠ .startRecord ∧ r.PullCompletes m' (n + 1) items k record) := by
  unfold PullCompletes
  cases h : m.readLine r.dialect r.limit line with
  | error cause => simp [pull, h]
  | ok m' =>
    have hk : n + (k + 1) = n + 1 + k := by omega
    by_cases hs : m'.state = .startRecord
    · simp only [pull, h, hs, if_true, Pull.mk.injEq, Option.some.injEq, Except.ok.injEq,
        Cursor.mk.injEq, List.drop_succ_cons, true_and, ne_eq, not_true, false_and, or_false,
        exists_eq_left', and_true]
      constructor
      · rintro ⟨hfields, -, hn⟩
        exact ⟨by omega, hfields⟩
      · rintro ⟨rfl, hfields⟩
        exact ⟨hfields, rfl, rfl⟩
    · simp [pull, h, hs, hk]

theorem completes_one {d : Dialect} {limit : Nat} {line : String} {items : List Item} :
    (fresh (.ok line :: items) d limit).Completes 1 record ↔
      ∃ m, Machine.feed d limit .empty line.toList = .ok m ∧ m.state = .startRecord ∧
        m.fields.toList = record := by
  rw [completes_fresh, pullCompletes_ok_cons]
  constructor
  · rintro ⟨m, hread, ⟨hs, -, hfields⟩ | ⟨-, hrest⟩⟩
    · exact ⟨m, hread, hs, hfields⟩
    · exact absurd hrest (not_pullCompletes_zero rfl)
  · rintro ⟨m, hread, hs, hfields⟩
    exact ⟨m, hread, .inl ⟨hs, rfl, hfields⟩⟩

def shift (r : Cursor) (δ : Nat) : Cursor := { r with lineNum := r.lineNum + δ }

theorem pull_shift (r : Cursor) (δ : Nat) (m : Machine) (n : Nat) (items : List Item) :
    r.pull m (n + δ) items =
      ⟨(r.pull m n items).result, (r.pull m n items).after.shift δ⟩ := by
  induction items generalizing m n with
  | nil => rfl
  | cons item items ih =>
    cases item with
    | error cause => rfl
    | ok line =>
      have hn : n + δ + 1 = n + 1 + δ := Nat.add_right_comm n δ 1
      simp only [pull, hn]
      split
      · rfl
      · split
        · rfl
        · exact ih _ _

theorem next_shift (r : Cursor) (δ : Nat) :
    (r.shift δ).next = ⟨r.next.result, r.next.after.shift δ⟩ := by
  unfold next
  by_cases he : r.exhausted = true
  · simp [shift, he]
  · have hshift := pull_with r r.source (r.lineNum + δ) .empty (r.lineNum + δ) r.source
    simp only [shift, he, Bool.false_eq_true, if_false] at hshift ⊢
    rw [hshift, pull_shift]
    rfl

theorem advance_shift (r : Cursor) (δ k : Nat) : (r.shift δ).advance k = (r.advance k).shift δ := by
  induction k generalizing r with
  | zero => rfl
  | succ k ih =>
    simp only [advance, next_shift]
    exact ih _

theorem answer_shift (r : Cursor) (δ k : Nat) : (r.shift δ).answer k = r.answer k := by
  simp only [answer, advance_shift, next_shift]

end Cursor

/-- The next request takes `k` lines, the last of which completes the record. -/
def Completes (r : Reader) (k : Nat) (record : Record) : Prop :=
  r.next.forget = ⟨some (.ok record),
    { r.toCursor with source := r.source.drop k, lineNum := r.lineNum + k }⟩

theorem completes_iff {r : Reader} {k : Nat} {record : Record} :
    r.Completes k record ↔ r.toCursor.Completes k record := by
  rw [Completes, next_forget]
  rfl

end Tabular.Reader
