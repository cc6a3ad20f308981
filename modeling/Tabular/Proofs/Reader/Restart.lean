import Tabular.Proofs.Reader.Progress

/-! # Requests do not depend on the ones before

What a request meets of the requests before it is the rest of the source, the number of lines
counted and whether the end was met. So a reader goes on like a new one over the items that are
left, whatever its answers were so far, failures in the middle of a line or of a record included.
-/
namespace Tabular.Reader

variable {d : Dialect} {limit : Nat}

namespace Cursor

structure Serves (r : Cursor) (d : Dialect) (limit : Nat) : Prop where
  dialect : r.dialect = d
  limit : r.limit = limit
  settled : r.Settled

theorem serves_fresh (source : List Item) (d : Dialect) (limit : Nat) :
    (fresh source d limit).Serves d limit := by
  constructor
  · rfl
  · rfl
  · intro he
    cases he

theorem Serves.next {r : Cursor} (h : r.Serves d limit) : r.next.after.Serves d limit := by
  obtain ⟨hdialect, hlimit⟩ := next_configuration r
  constructor
  · exact hdialect.trans h.dialect
  · exact hlimit.trans h.limit
  · exact next_settled h.settled

theorem Serves.advance {r : Cursor} (h : r.Serves d limit) (k : Nat) :
    (r.advance k).Serves d limit := by
  induction k generalizing r with
  | zero => exact h
  | succ k ih => exact ih h.next

theorem next_source_suffix (r : Cursor) : r.next.after.source <:+ r.source := by
  unfold next
  split
  · exact List.suffix_refl _
  · obtain ⟨taken, hsource, -⟩ := pull_takes r .empty r.lineNum r.source
    exact ⟨taken, hsource.symm⟩

theorem advance_source_suffix (r : Cursor) (k : Nat) : (r.advance k).source <:+ r.source := by
  induction k generalizing r with
  | zero => exact List.suffix_refl _
  | succ k ih => exact (ih r.next.after).trans (next_source_suffix r)

/-- An answer is read afresh from some place of the source on. -/
theorem exists_pull_of_answer {source : List Item} {k : Nat} {result : Except Failure Record}
    (h : (fresh source d limit).answer k = some result) :
    ∃ r n items, r.dialect = d ∧ r.limit = limit ∧ items <:+ source ∧
      (pull r .empty n items).result = some result := by
  obtain ⟨hdialect, hlimit, -⟩ := (serves_fresh source d limit).advance k
  unfold answer next at h
  split at h
  · cases h
  · exact ⟨_, _, _, hdialect, hlimit, advance_source_suffix (fresh source d limit) k, h⟩

theorem advance_add (r : Cursor) (j k : Nat) : r.advance (j + k) = (r.advance j).advance k := by
  induction j generalizing r with
  | zero => rw [Nat.zero_add]; rfl
  | succ j ih =>
    rw [Nat.succ_add]
    exact ih r.next.after

theorem answer_add (r : Cursor) (j k : Nat) : r.answer (j + k) = (r.advance j).answer k := by
  simp only [answer, advance_add]

/-- The answers of `r` are those of `s`, with `n` more lines counted. -/
structure Follows (r s : Cursor) (n : Nat) : Prop where
  answers : ∀ k, r.answer k = s.answer k
  sources : ∀ k, (r.advance k).source = (s.advance k).source
  lines : ∀ k, (r.advance k).lineNum = n + (s.advance k).lineNum

theorem follows_shift (r : Cursor) (n : Nat) : (r.shift n).Follows r n := by
  constructor
  · exact answer_shift r n
  · intro k
    rw [advance_shift]
    rfl
  · intro k
    rw [advance_shift]
    exact Nat.add_comm _ _

/-- Without items left, no answer is to come, whether the end was met or not. -/
theorem follows_of_source_nil {r s : Cursor} (hr : r.source = []) (hs : s.source = [])
    (hn : s.lineNum = 0) : r.Follows s r.lineNum := by
  have hnone : ∀ {t : Cursor}, t.source = [] → ∀ k, t.answer k = none := fun ht k =>
    (next_of_source_nil (advance_of_source_nil ht k).1).1
  constructor
  · intro k
    rw [hnone hr, hnone hs]
  · intro k
    rw [(advance_of_source_nil hr k).1, (advance_of_source_nil hs k).1]
  · intro k
    rw [(advance_of_source_nil hr k).2, (advance_of_source_nil hs k).2, hn]
    rfl

theorem Serves.follows_fresh {r : Cursor} (h : r.Serves d limit) :
    r.Follows (fresh r.source d limit) r.lineNum := by
  by_cases he : r.exhausted = true
  · exact follows_of_source_nil (h.settled he) (h.settled he) rfl
  · have hr : r = (fresh r.source d limit).shift r.lineNum := by
      rcases r with ⟨source, dialect, limit', lineNum, exhausted⟩
      obtain ⟨rfl, rfl, -⟩ := h
      simp only [Bool.not_eq_true] at he
      simp [fresh, shift, he]
    have hfollows := follows_shift (fresh r.source d limit) r.lineNum
    rwa [← hr] at hfollows

end Cursor

/-- After any number of requests, whatever their answers were, a reader goes on like a new reader
of the same dialect and limit over the items not yet pulled: the answers agree, they leave the same
items behind, and the lines counted differ by those counted before. It does so whatever its machine
was left in the middle of, and would with any other machine in its place. -/
theorem requests_start_afresh {source : List Item} {d : Dialect} {limit : Nat} {r : Reader}
    (h : open? source d limit = .ok r) (j : Nat) :
    ∃ new, open? (r.advance j).source d limit = .ok new ∧
      (∀ k, r.answer (j + k) = new.answer k ∧
        (r.advance (j + k)).source = (new.advance k).source ∧
        (r.advance (j + k)).lineNum = (r.advance j).lineNum + (new.advance k).lineNum) ∧
      ∀ left k, (Reader.mk (r.advance j).toCursor left).answer k = new.answer k := by
  obtain ⟨hvalid, rfl⟩ := open?_eq_ok.mp h
  have hfollows := ((Cursor.serves_fresh source d limit).advance j).follows_fresh
  refine ⟨_, open?_eq_ok.mpr ⟨hvalid, rfl⟩, ?_, ?_⟩
  · intro k
    simp only [answer_eq, toCursor_advance, toCursor_fresh]
    rw [Cursor.answer_add, Cursor.advance_add]
    exact ⟨hfollows.answers k, hfollows.sources k, hfollows.lines k⟩
  · intro left k
    simp only [answer_eq, toCursor_advance, toCursor_fresh]
    exact hfollows.answers k

/-- The first record of the source fails in its second line. It leaves the machine between quotes,
with a field complete and the next one open. -/
theorem requests_start_afresh_nul :
    let source : List Item := [.ok "a,\"b\n", .ok "c\x00\n", .ok "d,\"e\"\n"]
    let r := fresh source Dialect.excel 8
    open? source Dialect.excel 8 = .ok r ∧ r.answer 0 = some (.error .nulInLine) ∧
      (r.advance 1).machine = .of .inQuoted #["a"] #['b', '\n', 'c'] false ∧
      ∃ new, open? [.ok "d,\"e\"\n"] Dialect.excel 8 = .ok new ∧ r.answer 1 = new.answer 0 ∧
        (r.advance 2).lineNum = 2 + (new.advance 1).lineNum := by
  intro source r
  have h : open? source Dialect.excel 8 = .ok r := rfl
  obtain ⟨new, hnew, hlater, -⟩ := requests_start_afresh h 1
  refine ⟨h, rfl, ?_, new, hnew, (hlater 0).1, (hlater 1).2.2⟩
  subst r source
  rfl

end Tabular.Reader
