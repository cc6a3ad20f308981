import Tabular.Bytes
import Tabular.Proofs.Failure
import Tabular.Proofs.Slice.Addressed
import Tabular.Sequence

/-! # Slices in words

Here a slice is resolved and read with operations on words of 64 bits that give no result when they
overflow, and with reads that give none outside the data. For bounds and a length that are words
every operation has its result, and the answer is that of the library.
-/
namespace Tabular

namespace Word

/-- The result of an operation, if it is a signed word. -/
def signed (x : Int) : Option Int :=
  if -0x8000000000000000 ≤ x ∧ x < 0x8000000000000000 then some x else none

def unsigned (x : Int) : Option Nat :=
  if 0 ≤ x ∧ x < 0x10000000000000000 then some x.toNat else none

def size (x : Int) : Option Nat := if 0 ≤ x then some x.toNat else none

def quotient (a b : Int) : Option Int := if b = 0 then none else signed (a.tdiv b)

def strides (low high stride : Int) : Option Nat := do
  let gap ← signed (high - low)
  let full ← signed (gap - 1)
  let whole ← quotient full stride
  let count ← signed (whole + 1)
  size count

theorem signed_eq {x : Int} (hlow : -0x8000000000000000 ≤ x) (hhigh : x < 0x8000000000000000) :
    signed x = some x := if_pos ⟨hlow, hhigh⟩

theorem unsigned_eq {x : Int} {k : Nat} (h : x = k) (hk : k < 0x10000000000000000) :
    unsigned x = some k := by
  rw [unsigned, if_pos (by omega), h, Int.toNat_natCast]

theorem unsigned_eq_none {x : Int} (h : 0x10000000000000000 ≤ x) : unsigned x = none :=
  if_neg (by omega)

theorem size_eq {x : Int} (h : 0 ≤ x) : size x = some x.toNat := if_pos h

theorem strides_eq {low high stride : Int} (hlt : low < high)
    (hgap : high - low < 0x8000000000000000) (hstride : 0 < stride) :
    strides low high stride = some ((high - low - 1) / stride + 1).toNat := by
  have hnonneg : 0 ≤ (high - low - 1) / stride := Int.ediv_nonneg (by omega) (by omega)
  have hle : (high - low - 1) / stride ≤ high - low - 1 := Int.ediv_le_self _ (by omega)
  have hquot : quotient (high - low - 1) stride = some ((high - low - 1) / stride) := by
    rw [quotient, if_neg (by omega), Int.tdiv_eq_ediv_of_nonneg (by omega)]
    exact signed_eq (by omega) (by omega)
  rw [strides]
  simp (disch := omega) only [signed_eq, size_eq, hquot, Option.bind_eq_bind, Option.bind_some]

end Word

namespace Slice

open Word

def ofWords (start stop step : Option Int64) : Slice :=
  ⟨start.map Int64.toInt, stop.map Int64.toInt, step.map Int64.toInt⟩

def bound? (i len step : Int) : Option Int :=
  if i < 0 then do
    let j ← signed (i + len)
    if j < 0 then some (if step < 0 then -1 else 0) else some j
  else if len ≤ i then
    if step < 0 then signed (len - 1) else some len
  else some i

def first? (start : Option Int) (len step : Int) : Option Int :=
  match start with
  | some i => bound? i len step
  | none => if step < 0 then signed (len - 1) else some 0

def last? (stop : Option Int) (len step : Int) : Option Int :=
  match stop with
  | some i => bound? i len step
  | none => some (if step < 0 then -1 else len)

def steps? (start stop step : Int) : Option Nat :=
  if step < 0 then
    if stop < start then do
      let stride ← signed (-step)
      strides stop start stride
    else some 0
  else if start < stop then strides start stop step
  else some 0

def resolve? (s : Slice) (len : Nat) : Option (Except Failure Walk) :=
  let given := s.step.getD 1
  if given = 0 then some (.error .zeroSliceStep)
  else do
    let step := max given leastStep
    let n ← signed len
    let start ← first? s.start n step
    let stop ← last? s.stop n step
    let count ← steps? start stop step
    some (.ok ⟨start, stop, step, count⟩)

theorem step_ofWords_eq_zero_iff {start stop step : Option Int64} :
    (ofWords start stop step).step = some 0 ↔ step = some 0 := by
  simp only [ofWords, Option.map_eq_some_iff]
  constructor
  · rintro ⟨i, hi, hzero⟩
    rw [hi, Int64.toInt_inj.mp (hzero.trans Int64.toInt_zero.symm)]
  · intro h
    exact ⟨0, h, Int64.toInt_zero⟩

variable {start stop : Option Int64} {len : Nat} {step : Int}

theorem bound?_eq (i : Int64) (hlen : len < 0x8000000000000000) (step : Int) :
    bound? i.toInt len step = some (bound i.toInt len step) := by
  have hlow := i.le_toInt
  have hhigh := i.toInt_lt
  unfold bound? bound
  by_cases hneg : i.toInt < 0
  · simp (disch := omega) only [hneg, ↓reduceIte, signed_eq, Option.bind_eq_bind,
      Option.bind_some]
    by_cases hbelow : i.toInt + len < 0
    · simp only [hbelow, ↓reduceIte, Option.some.injEq]
      split <;> omega
    · simp only [hbelow, ↓reduceIte, Option.some.injEq]
      split <;> omega
  · simp (disch := omega) only [hneg, ↓reduceIte, signed_eq]
    by_cases hbeyond : (len : Int) ≤ i.toInt
    · simp only [hbeyond, ↓reduceIte]
      split <;> simp only [Option.some.injEq] <;> omega
    · simp only [hbeyond, ↓reduceIte, Option.some.injEq]
      split <;> omega

theorem first?_eq (hlen : len < 0x8000000000000000) (step : Int) :
    first? (start.map Int64.toInt) len step = some (first (start.map Int64.toInt) len step) := by
  cases start with
  | some i => exact bound?_eq i hlen step
  | none =>
    simp (disch := omega) only [first?, first, Option.map_none, signed_eq]
    split <;> rfl

theorem last?_eq (hlen : len < 0x8000000000000000) (step : Int) :
    last? (stop.map Int64.toInt) len step = some (last (stop.map Int64.toInt) len step) := by
  cases stop with
  | some i => exact bound?_eq i hlen step
  | none => rfl

/-- The gap between two places of a walk is at most the length. -/
theorem steps?_eq {first last : Int} (hlen : len < 0x8000000000000000) (hne : step ≠ 0)
    (hleast : leastStep ≤ step) (hfirst : IsPlace len step first) (hlast : IsPlace len step last) :
    steps? first last step = some (steps first last step) := by
  rw [leastStep] at hleast
  unfold steps? steps
  by_cases hneg : step < 0
  · simp only [IsPlace, hneg, ↓reduceIte] at hfirst hlast ⊢
    split
    · simp (disch := omega) only [signed_eq, Option.bind_eq_bind, Option.bind_some, strides_eq]
    · rfl
  · simp only [IsPlace, hneg, ↓reduceIte] at hfirst hlast ⊢
    split
    · exact strides_eq (by omega) (by omega) (by omega)
    · rfl

theorem resolve?_eq (start stop step : Option Int64) (hlen : len < 0x8000000000000000) :
    (ofWords start stop step).resolve? len = some ((ofWords start stop step).resolve len) := by
  unfold resolve? resolve
  by_cases hzero : (ofWords start stop step).step.getD 1 = 0
  · simp only [hzero, ↓reduceIte]
  · have hne : max ((ofWords start stop step).step.getD 1) leastStep ≠ 0 := by
      rw [leastStep]
      omega
    have hsteps := steps?_eq hlen hne (Int.le_max_right _ _)
      (isPlace_first (start.map Int64.toInt) len _) (isPlace_last (stop.map Int64.toInt) len _)
    simp only [hzero, ↓reduceIte]
    simp (disch := omega) only [signed_eq, Option.bind_eq_bind, Option.bind_some]
    simp only [ofWords, first?_eq hlen, last?_eq hlen, Option.bind_some] at hsteps ⊢
    rw [hsteps, Option.bind_some]

end Slice

namespace Walk

open Word

variable {w : Walk} {len : Nat} {k : Nat}

def position? (w : Walk) (k : Nat) : Option Nat := do
  let k ← signed k
  let offset ← signed (k * w.step)
  let place ← signed (w.start + offset)
  size place

def positions? (w : Walk) : Option (List Nat) := (List.range w.count).mapM w.position?

def select? {α : Type u} (w : Walk) (l : List α) : Option (List α) :=
  if w.contiguous then
    if w.rangeStart ≤ w.rangeEnd ∧ w.rangeEnd ≤ l.length then
      some ((l.take w.rangeEnd).drop w.rangeStart)
    else none
  else w.positions?.bind fun positions => positions.mapM fun i => l[i]?

namespace Within

theorem position?_eq (h : w.Within len) (hlen : len < 0x8000000000000000) (hk : k < w.count) :
    w.position? k = some (w.position k) := by
  have hplace := h.place_of_lt hk
  have hstart := h.start
  have hcount := h.count_le
  have hbounds : -1 ≤ w.start ∧ w.start ≤ len := by
    unfold Slice.IsPlace at hstart
    split at hstart <;> omega
  rw [position?, position]
  simp (disch := omega) only [signed_eq, size_eq, Option.bind_eq_bind, Option.bind_some]

theorem positions?_eq (h : w.Within len) (hlen : len < 0x8000000000000000) :
    w.positions? = some w.positions := by
  apply mapM_eq_some
  rw [positions, List.map_map]
  apply List.map_congr_left
  intro k hk
  exact h.position?_eq hlen (List.mem_range.mp hk)

theorem select?_eq {α : Type u} {l : List α} (h : w.Within l.length)
    (hlen : l.length < 0x8000000000000000) : w.select? l = some (w.select l) := by
  by_cases hstep : w.step = 1
  · obtain ⟨-, hend, hle⟩ := h.range_of_step_one hstep
    simp only [select?, select, contiguous, hstep, beq_self_eq_true, ↓reduceIte]
    rw [if_pos ⟨by omega, hle⟩]
  · have hread := h.map_some_select
    rw [select?, contiguous, if_neg (by simpa using hstep), h.positions?_eq hlen, Option.bind_some]
    exact mapM_eq_some hread.symm

end Within

end Walk

/-- Slices whose bounds are words, over a length that is one: a step of zero is refused. With any
other step no operation overflows, the walk goes through the addressed positions, and a list or byte
string of that length gives up exactly the elements at these, with no read outside it. -/
theorem slices_read_addressed {α : Type u} (start stop step : Option Int64) {len : Nat}
    (hlen : len < 0x8000000000000000) :
    let s := Slice.ofWords start stop step
    (step = some 0 → s.resolve len = .error .zeroSliceStep ∧
      (∀ l : List α, Sequence.slice l s = .error .zeroSliceStep) ∧
      ∀ b : Bytes, b.slice s = .error .zeroSliceStep) ∧
    (step ≠ some 0 → ∃ w, s.resolve len = .ok w ∧ s.resolve? len = some (.ok w) ∧
      w.positions? = some w.positions ∧ w.positions.length = w.count ∧
      (∀ i ∈ w.positions, i < len) ∧ w.positions = s.addressed len ∧
      (∀ l : List α, l.length = len → ∃ part, Sequence.slice l s = .ok part ∧
        w.select? l = some part ∧ part.map some = (s.addressed len).map fun i => l[i]?) ∧
      ∀ b : Bytes, b.data.length = len → ∃ part,
        b.slice s = .ok { data := part, frozen := b.frozen } ∧ w.select? b.data = some part ∧
        part.map some = (s.addressed len).map fun i => b.data[i]?) := by
  intro s
  constructor
  · rintro rfl
    have hzero : ∀ len, s.resolve len = .error .zeroSliceStep := by
      intro len
      exact Slice.resolve_eq_error.mpr ⟨rfl, rfl⟩
    refine ⟨hzero len, ?_, ?_⟩
    · intro l
      rw [Sequence.slice, hzero]
    · intro b
      rw [Bytes.slice, hzero]
  · intro hstep
    obtain ⟨w, hwalk⟩ :=
      Slice.exists_resolve (mt Slice.step_ofWords_eq_zero_iff.mp hstep) len
    have hwithin := Walk.within_of_resolve hwalk
    have hpositions := Slice.positions_eq_addressed hwalk hlen
    refine ⟨w, hwalk, ?_, hwithin.positions?_eq hlen, w.length_positions,
      fun i => hwithin.lt_of_mem_positions, hpositions, ?_, ?_⟩
    · rw [Slice.resolve?_eq start stop step hlen, hwalk]
    · rintro l rfl
      refine ⟨w.select l, ?_, hwithin.select?_eq hlen, ?_⟩
      · rw [Sequence.slice, hwalk]
      · rw [hwithin.map_some_select, hpositions]
    · rintro b rfl
      refine ⟨w.select b.data, ?_, hwithin.select?_eq hlen, ?_⟩
      · rw [Bytes.slice, hwalk]
      · rw [hwithin.map_some_select, hpositions]

/-- The least step, from beyond the end to before the start. -/
theorem slices_read_addressed_farBack :
    let s := Slice.ofWords (some 4) (some Int64.minValue) (some Int64.minValue)
    s.addressed 3 = [2] ∧ s.resolve? 3 = some (s.resolve 3) ∧
      Sequence.slice [30, 10, 20] s = .ok [20] ∧
      Sequence.slice [30, 10, 20] (Slice.ofWords none none (some 0)) = .error .zeroSliceStep := by
  intro s
  have hlen : 3 < 0x8000000000000000 := by decide
  have haddressed : s.addressed 3 = [2] := by
    subst s
    decide
  obtain ⟨-, hread⟩ :=
    @slices_read_addressed Nat (some 4) (some Int64.minValue) (some Int64.minValue) 3 hlen
  obtain ⟨w, hwalk, hwords, -, -, -, -, hlists, -⟩ := hread (by decide)
  obtain ⟨part, hpart, -, hmap⟩ := hlists [30, 10, 20] rfl
  have heq : part = [20] := by
    rw [haddressed] at hmap
    exact List.map_injective_iff.mpr (Option.some_injective Nat) hmap
  obtain ⟨hrefused, -⟩ := @slices_read_addressed Nat none none (some 0) 3 hlen
  refine ⟨haddressed, ?_, ?_, (hrefused rfl).2.1 [30, 10, 20]⟩
  · rw [hwords, hwalk]
  · rw [hpart, heq]

end Tabular
