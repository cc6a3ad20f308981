import Tabular.Proofs.Slice.Checked

/-! # Repetition

A list is repeated into new memory or in its own. Both ways make the same list or fail for the same
lengths. Here they are also carried out on memory with a limited room: the length is computed in
words, room is asked for once, and then copies are added one by one, from the list given or from the
front of the memory itself. Adding beyond the room has no result, so none is ever missing.
-/
namespace Tabular

namespace Sequence

open Word

variable {α : Type u} {β : Type v} {l : List α} {n : Int} {bound k : Nat}

theorem copies_succ (l : List α) (k : Nat) : copies l (k + 1) = l ++ copies l k := by
  rw [copies, copies, List.replicate_succ, List.flatten_cons]

theorem length_copies (l : List α) (k : Nat) : (copies l k).length = l.length * k := by
  induction k with
  | zero => rfl
  | succ k ih => rw [copies_succ, List.length_append, ih, Nat.mul_succ, Nat.add_comm]

theorem getElem?_copies {i : Nat} (h : i < l.length * k) :
    (copies l k)[i]? = l[i % l.length]? := by
  induction k generalizing i with
  | zero => cases h
  | succ k ih =>
    rw [copies_succ]
    by_cases hi : i < l.length
    · rw [List.getElem?_append_left hi, Nat.mod_eq_of_lt hi]
    · rw [Nat.mul_succ] at h
      rw [List.getElem?_append_right (by omega), ih (by omega),
        ← Nat.mod_eq_sub_mod (by omega)]

/-- What is held, and how many items there is room for. -/
structure Storage (α : Type u) where
  items : List α
  room : Nat
  rounds : Nat
  enough : items.length ≤ room

namespace Storage

variable {s t : Storage α}

def empty : Storage α := ⟨[], 0, 0, Nat.le_refl 0⟩

def clear (s : Storage α) : Storage α := ⟨[], s.room, s.rounds, Nat.zero_le _⟩

/-- Asks for room for more items where there is too little; it may be that none can be had. -/
def reserve? (bound : Nat) (s : Storage α) (more : Nat) : Option (Storage α) :=
  if more ≤ s.room - s.items.length then some s
  else if fits bound (s.items.length + more) then
    some ⟨s.items, s.items.length + more, s.rounds, Nat.le_add_right _ _⟩
  else none

def extend? (s : Storage α) (more : List α) : Option (Storage α) :=
  if h : s.items.length + more.length ≤ s.room then
    some ⟨s.items ++ more, s.room, s.rounds + 1, List.length_append ▸ h⟩
  else none

def extendWithin? (s : Storage α) (len : Nat) : Option (Storage α) :=
  if len ≤ s.items.length then s.extend? (s.items.take len) else none

theorem extendWithin?_eq (h : l <+: s.items) : s.extendWithin? l.length = s.extend? l := by
  rw [extendWithin?, if_pos h.length_le, ← List.prefix_iff_eq_take.mp h]

theorem exists_extend? {more : List α} (h : s.items.length + more.length ≤ s.room) :
    ∃ t, s.extend? more = some t ∧ t.items = s.items ++ more ∧ t.room = s.room ∧
      t.rounds = s.rounds + 1 :=
  ⟨_, dif_pos h, rfl, rfl, rfl⟩

theorem prefix_of_extend? {more : List α} (h : s.extend? more = some t) : s.items <+: t.items := by
  rw [extend?] at h
  split at h
  · rw [← Option.some.inj h]
    exact List.prefix_append s.items more
  · cases h

theorem exists_reserve? (s : Storage α) {more : Nat}
    (h : fits bound (s.items.length + more) = true) :
    ∃ t, s.reserve? bound more = some t ∧ t.items = s.items ∧ t.rounds = s.rounds ∧
      t.items.length + more ≤ t.room := by
  have henough := s.enough
  by_cases hroom : more ≤ s.room - s.items.length
  · exact ⟨s, if_pos hroom, rfl, rfl, by omega⟩
  · refine ⟨⟨s.items, s.items.length + more, s.rounds, by omega⟩, ?_, rfl, rfl, Nat.le_refl _⟩
    rw [reserve?, if_neg hroom, if_pos h]

theorem reserve?_eq_none (hroom : fits bound s.room = true) {more : Nat}
    (h : fits bound (s.items.length + more) = false) : s.reserve? bound more = none := by
  have hmore : ¬ more ≤ s.room - s.items.length := by
    have henough := s.enough
    rw [← Bool.not_eq_true, fits_iff] at h
    rw [fits_iff] at hroom
    omega
  rw [reserve?, if_neg hmore, h, if_neg Bool.false_ne_true]

end Storage

def turns (step : β → Option β) : Nat → β → Option β
  | 0, s => some s
  | k + 1, s => (step s).bind (turns step k)

theorem turns_extend? {s : Storage α} (h : s.items.length + l.length * k ≤ s.room) :
    ∃ t, turns (·.extend? l) k s = some t ∧ t.items = s.items ++ copies l k ∧
      t.rounds = s.rounds + k := by
  induction k generalizing s with
  | zero => exact ⟨s, rfl, (List.append_nil _).symm, rfl⟩
  | succ k ih =>
    rw [Nat.mul_succ] at h
    obtain ⟨next, hnext, hitems, hroom, hrounds⟩ :=
      s.exists_extend? (show s.items.length + l.length ≤ s.room by omega)
    have hleft : next.items.length + l.length * k ≤ next.room := by
      rw [hitems, hroom, List.length_append]
      omega
    obtain ⟨t, hturns, htitems, htrounds⟩ := ih hleft
    refine ⟨t, ?_, ?_, by omega⟩
    · rw [turns, hnext, Option.bind_some, hturns]
    · rw [htitems, hitems, copies_succ, List.append_assoc]

/-- The front stays the same while copies of it are added. -/
theorem turns_extendWithin? {s : Storage α} (h : l <+: s.items) (k : Nat) :
    turns (·.extendWithin? l.length) k s = turns (·.extend? l) k s := by
  induction k generalizing s with
  | zero => rfl
  | succ k ih =>
    rw [turns, turns, Storage.extendWithin?_eq h]
    cases hnext : s.extend? l with
    | none => rfl
    | some t =>
      rw [Option.bind_some, Option.bind_some, ih]
      exact h.trans (Storage.prefix_of_extend? hnext)

def repeatedLength? (len : Nat) (n : Int) : Option Nat := do
  let n ← unsigned n
  unsigned (len * n)

def repeated? (bound : Nat) (l : List α) (n : Int) : Option (Except Failure (Storage α)) :=
  if n ≤ 0 ∨ l.isEmpty then some (.ok .empty)
  else
    match (repeatedLength? l.length n).bind (Storage.empty.reserve? bound) with
    | none => some (.error (.repeatTooLong container))
    | some s => (turns (·.extend? l) n.toNat s).map .ok

def repeatInPlace? (bound : Nat) (s : Storage α) (n : Int) : Option (Outcome (Storage α) Unit) :=
  if n ≤ 0 then some (.done () s.clear)
  else if s.items.isEmpty then some (.done () s)
  else
    match repeatedLength? s.items.length n with
    | none => some (.fail (.repeatTooLong container) s)
    | some total =>
      (unsigned (total - s.items.length)).bind fun more =>
        match s.reserve? bound more with
        | none => some (.fail (.repeatTooLong container) s)
        | some grown =>
          (turns (·.extendWithin? s.items.length) (n - 1).toNat grown).map (.done ())

/-- There are items, copies of them are asked for, and their number is no word or exceeds the
bound. -/
def TooLong (bound : Nat) (l : List α) (n : Int) : Prop :=
  l ≠ [] ∧ 0 < n ∧ (0x10000000000000000 ≤ l.length * n ∨ bound < l.length * n)

theorem fits_eq_true_iff (hl : l ≠ []) (hn : 0 < n) :
    fits bound (l.length * n.toNat) = true ↔ ¬ TooLong bound l n := by
  have hcast : ((l.length * n.toNat : Nat) : Int) = l.length * n := by
    rw [Int.natCast_mul, Int.toNat_of_nonneg (by omega)]
  rw [fits_iff, TooLong]
  simp only [ne_eq, hl, hn, not_false_eq_true, true_and]
  omega

theorem repeatedLength?_eq (hl : l ≠ []) (hn : 0 < n) :
    repeatedLength? l.length n =
      if l.length * n.toNat < 0x10000000000000000 then some (l.length * n.toNat) else none := by
  have hpos : 0 < l.length := List.length_pos_iff.mpr hl
  have hle : n.toNat ≤ l.length * n.toNat := Nat.le_mul_of_pos_left n.toNat hpos
  rw [repeatedLength?]
  by_cases hword : l.length * n.toNat < 0x10000000000000000
  · have hn' : unsigned n = some n.toNat := unsigned_eq (by omega) (by omega)
    rw [hn', if_pos hword, Option.bind_eq_bind, Option.bind_some]
    exact unsigned_eq (Int.natCast_mul _ _).symm hword
  · rw [if_neg hword]
    by_cases hn' : n.toNat < 0x10000000000000000
    · rw [show unsigned n = some n.toNat from unsigned_eq (by omega) hn', Option.bind_eq_bind,
        Option.bind_some, ← Int.natCast_mul]
      exact unsigned_eq_none (by omega)
    · rw [unsigned_eq_none (by omega)]
      rfl

theorem fits_eq_false (h : TooLong bound l n) : fits bound (l.length * n.toNat) = false := by
  rw [← Bool.not_eq_true, fits_eq_true_iff h.1 h.2.1]
  exact not_not_intro h

theorem copies_eq_nil (h : n ≤ 0 ∨ l = []) : copies l n.toNat = [] := by
  apply List.eq_nil_of_length_eq_zero
  rw [length_copies]
  rcases h with hn | rfl
  · rw [Int.toNat_of_nonpos hn, Nat.mul_zero]
  · rw [List.length_nil, Nat.zero_mul]

theorem repetitions_of_tooLong (h : TooLong bound l n) :
    repeated bound l n = .error (.repeatTooLong container) ∧
      repeatInPlace bound l n = .fail (.repeatTooLong container) l := by
  have hn : ¬ n ≤ 0 := Int.not_le.mpr h.2.1
  have hl : ¬ l.isEmpty = true := by simpa using h.1
  simp [repeated, repeatInPlace, hn, hl, fits_eq_false h]

theorem repeated?_of_tooLong (h : TooLong bound l n) :
    repeated? bound l n = some (.error (.repeatTooLong container)) := by
  obtain ⟨hl, hn, -⟩ := id h
  have hnone : (repeatedLength? l.length n).bind ((@Storage.empty α).reserve? bound) = none := by
    rw [repeatedLength?_eq hl hn]
    split
    · refine Storage.reserve?_eq_none (by simp [fits, Storage.empty]) ?_
      rw [show (@Storage.empty α).items.length = 0 from rfl, Nat.zero_add]
      exact fits_eq_false h
    · rfl
  rw [repeated?, if_neg (by simpa [hl] using hn), hnone]

theorem repeatInPlace?_of_tooLong {s : Storage α} (h : TooLong bound s.items n)
    (hroom : fits bound s.room = true) :
    repeatInPlace? bound s n = some (.fail (.repeatTooLong container) s) := by
  obtain ⟨hl, hn, -⟩ := id h
  rw [repeatInPlace?, if_neg (by omega), if_neg (by simpa using hl), repeatedLength?_eq hl hn]
  by_cases hword : s.items.length * n.toNat < 0x10000000000000000
  · have hle : s.items.length ≤ s.items.length * n.toNat :=
      Nat.le_mul_of_pos_right _ (by omega)
    have hmore : unsigned ((s.items.length * n.toNat : Nat) - (s.items.length : Int)) =
        some (s.items.length * n.toNat - s.items.length) := unsigned_eq (by omega) (by omega)
    have hnone : s.reserve? bound (s.items.length * n.toNat - s.items.length) = none := by
      refine Storage.reserve?_eq_none hroom ?_
      rw [Nat.add_sub_cancel' hle]
      exact fits_eq_false h
    simp only [hword, ↓reduceIte, hmore, Option.bind_some, hnone]
  · simp only [hword, ↓reduceIte]

theorem repetitions_of_not_tooLong (h : ¬ TooLong bound l n) :
    repeated bound l n = .ok (copies l n.toNat) ∧
      repeatInPlace bound l n = .done () (copies l n.toNat) := by
  by_cases hn : n ≤ 0
  · simp [repeated, repeatInPlace, hn, copies_eq_nil (.inl hn : n ≤ 0 ∨ l = [])]
  by_cases hl : l = []
  · simp [repeated, repeatInPlace, hn, hl, copies_eq_nil (.inr rfl : n ≤ 0 ∨ ([] : List α) = [])]
  have hfits := (fits_eq_true_iff hl (by omega)).mpr h
  have hcopies : copies l n.toNat = l ++ copies l (n.toNat - 1) := by
    rw [← copies_succ, Nat.sub_add_cancel (by omega)]
  simp [repeated, repeatInPlace, hn, hl, hfits, ← hcopies]

/-- One copy of a list that was itself had within the bound asks for nothing more. -/
theorem repeatInPlace_one (h : fits bound l.length = true) :
    repeatInPlace bound l 1 = .done () l := by
  have hshort : ¬ TooLong bound l 1 := by
    rw [fits_iff] at h
    rintro ⟨-, -, hlong⟩
    omega
  rw [(repetitions_of_not_tooLong hshort).2]
  simp [copies]

theorem exists_repeated? (h : ¬ TooLong bound l n) :
    ∃ made, repeated? bound l n = some (.ok made) ∧ made.items = copies l n.toNat ∧
      made.rounds ≤ l.length * n.toNat := by
  by_cases hnone : n ≤ 0 ∨ l = []
  · refine ⟨.empty, ?_, (copies_eq_nil hnone).symm, Nat.zero_le _⟩
    rw [repeated?, if_pos (by simpa using hnone)]
  · obtain ⟨hn, hl⟩ := not_or.mp hnone
    have hfits := (fits_eq_true_iff hl (by omega)).mpr h
    have hle : n.toNat ≤ l.length * n.toNat :=
      Nat.le_mul_of_pos_left _ (List.length_pos_iff.mpr hl)
    obtain ⟨s, hreserve, hitems, hrounds, hroom⟩ :=
      (@Storage.empty α).exists_reserve? (by rwa [← Nat.zero_add (l.length * n.toNat)] at hfits)
    obtain ⟨made, hturns, hmade, hmaderounds⟩ := turns_extend? hroom
    refine ⟨made, ?_, ?_, ?_⟩
    · rw [repeated?, if_neg (by simpa using hnone), repeatedLength?_eq hl (by omega),
        if_pos (fits_iff.mp hfits).1, Option.bind_some, hreserve]
      simp only [hturns, Option.map_some]
    · rw [hmade, hitems]
      rfl
    · have hnew : (@Storage.empty α).rounds = 0 := rfl
      omega

theorem exists_repeatInPlace? {s : Storage α} (h : ¬ TooLong bound s.items n) :
    ∃ kept, repeatInPlace? bound s n = some (.done () kept) ∧
      kept.items = copies s.items n.toNat ∧
      kept.rounds ≤ s.rounds + s.items.length * n.toNat := by
  by_cases hn : n ≤ 0
  · refine ⟨s.clear, ?_, (copies_eq_nil (.inl hn)).symm, Nat.le_add_right _ _⟩
    rw [repeatInPlace?, if_pos hn]
  by_cases hl : s.items = []
  · refine ⟨s, ?_, ?_, Nat.le_add_right _ _⟩
    · rw [repeatInPlace?, if_neg hn, if_pos (by simp [hl])]
    · rw [copies_eq_nil (.inr hl), hl]
  obtain ⟨m, hm⟩ : ∃ m, n.toNat = m + 1 := ⟨n.toNat - 1, by omega⟩
  have hfits := (fits_eq_true_iff hl (by omega)).mpr h
  have hword := (fits_iff.mp hfits).1
  have hlength := repeatedLength?_eq hl (show 0 < n by omega)
  have hle : m ≤ s.items.length * m := Nat.le_mul_of_pos_left _ (List.length_pos_iff.mpr hl)
  rw [if_pos hword] at hlength
  rw [hm, Nat.mul_succ] at hfits hword hlength ⊢
  have hmore : unsigned ((s.items.length * m + s.items.length : Nat) - (s.items.length : Int)) =
      some (s.items.length * m) := unsigned_eq (by omega) (by omega)
  obtain ⟨grown, hreserve, hitems, hrounds, hroom⟩ :=
    s.exists_reserve? (by rwa [Nat.add_comm] at hfits)
  obtain ⟨kept, hturns, hkept, hkeptrounds⟩ := turns_extend? hroom
  refine ⟨kept, ?_, ?_, by omega⟩
  · have hwithin := turns_extendWithin? (hitems ▸ List.prefix_rfl : s.items <+: grown.items) m
    rw [repeatInPlace?, if_neg hn, if_neg (by simpa using hl), hlength]
    simp only [hmore, Option.bind_some, hreserve, show (n - 1).toNat = m by omega, hwithin, hturns,
      Option.map_some]
  · rw [hkept, hitems, copies_succ]

/-- Where the length of the copies is no word or exceeds the bound, both repetitions fail and the
list stays as it was. Otherwise both give the copies, none of them if their number is not positive.
On memory they do the same, and no computation goes wrong on the way: the length does not wrap, what
is reserved is enough, and no more rounds are made than there are items in the end, so none for an
empty list. -/
theorem repetitions_agree (bound : Nat) (l : List α) (n : Int) :
    let r := copies l n.toNat
    r.length = l.length * n.toNat ∧ (∀ i < r.length, r[i]? = l[i % l.length]?) ∧
    (fits bound l.length = true → repeatInPlace bound l 1 = .done () l) ∧
    (TooLong bound l n →
      repeated bound l n = .error (.repeatTooLong container) ∧
      repeatInPlace bound l n = .fail (.repeatTooLong container) l ∧
      repeated? bound l n = some (.error (.repeatTooLong container)) ∧
      ∀ s : Storage α, s.items = l → fits bound s.room = true →
        repeatInPlace? bound s n = some (.fail (.repeatTooLong container) s)) ∧
    (¬ TooLong bound l n →
      repeated bound l n = .ok r ∧ repeatInPlace bound l n = .done () r ∧
      (∃ made, repeated? bound l n = some (.ok made) ∧ made.items = r ∧ made.rounds ≤ r.length) ∧
      ∀ s : Storage α, s.items = l → ∃ kept, repeatInPlace? bound s n = some (.done () kept) ∧
        kept.items = r ∧ kept.rounds ≤ s.rounds + r.length) := by
  intro r
  have hlength : r.length = l.length * n.toNat := length_copies l n.toNat
  refine ⟨hlength, ?_, repeatInPlace_one, ?_, ?_⟩
  · intro i hi
    exact getElem?_copies (hlength ▸ hi)
  · intro h
    obtain ⟨hnew, hplace⟩ := repetitions_of_tooLong h
    refine ⟨hnew, hplace, repeated?_of_tooLong h, ?_⟩
    rintro s rfl hroom
    exact repeatInPlace?_of_tooLong h hroom
  · intro h
    obtain ⟨hnew, hplace⟩ := repetitions_of_not_tooLong h
    rw [hlength]
    refine ⟨hnew, hplace, exists_repeated? h, ?_⟩
    rintro s rfl
    exact exists_repeatInPlace? h

/-- The greatest number of copies of two items and of none, and three copies. -/
theorem repetitions_agree_limits :
    let s : Storage Nat := ⟨[7, 8], 4, 0, by decide⟩
    repeated capacity [7, 8] 0x7fffffffffffffff = .error (.repeatTooLong container) ∧
      repeatInPlace? capacity s 0x7fffffffffffffff = some (.fail (.repeatTooLong container) s) ∧
      repeated capacity [7, 8] 3 = .ok [7, 8, 7, 8, 7, 8] ∧
      (∃ kept, repeatInPlace? capacity s 3 = some (.done () kept) ∧
        kept.items = [7, 8, 7, 8, 7, 8]) ∧
      ∃ made, repeated? 0 ([] : List Nat) 0x7fffffffffffffff = some (.ok made) ∧
        made.rounds = 0 := by
  intro s
  obtain ⟨-, -, -, hfails, -⟩ := repetitions_agree capacity [7, 8] 0x7fffffffffffffff
  obtain ⟨-, -, -, -, hmakes⟩ := repetitions_agree capacity [7, 8] 3
  obtain ⟨hlength, -, -, -, hempty⟩ := repetitions_agree 0 ([] : List Nat) 0x7fffffffffffffff
  have hlong : TooLong capacity [7, 8] 0x7fffffffffffffff := by
    refine ⟨by decide, by decide, .inr ?_⟩
    decide
  have hshort : ¬ TooLong capacity [7, 8] 3 := by
    rintro ⟨-, -, hword | hbound⟩
    · exact absurd hword (by decide)
    · exact absurd hbound (by decide)
  obtain ⟨hnew, -, -, hkept⟩ := hmakes hshort
  obtain ⟨-, -, ⟨made, hmade, -, hrounds⟩, -⟩ := hempty (fun h => h.1 rfl)
  obtain ⟨kept, hplace, hitems, -⟩ := hkept s rfl
  refine ⟨(hfails hlong).1, (hfails hlong).2.2.2 s rfl (by decide), hnew, ⟨kept, hplace, hitems⟩,
    made, hmade, ?_⟩
  rw [hlength, List.length_nil, Nat.zero_mul] at hrounds
  exact Nat.eq_zero_of_le_zero hrounds

end Sequence

end Tabular
