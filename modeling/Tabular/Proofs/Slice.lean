import Tabular.Slice

/-! # Walks stay within the length

A slice resolved against a length is a walk whose positions all lie below that length, so that
reading them gives as many elements as the walk has steps.
-/
namespace Tabular

namespace Slice

/-- The places that a walk over so many positions can start from or stop at. -/
def IsPlace (len : Nat) (step i : Int) : Prop :=
  if step < 0 then -1 ≤ i ∧ i < len else 0 ≤ i ∧ i ≤ len

variable {s : Slice} {len : Nat} {w : Walk} {step : Int}

theorem isPlace_bound (i : Int) (len : Nat) (step : Int) : IsPlace len step (bound i len step) := by
  unfold IsPlace bound
  by_cases hstep : step < 0
  · simp only [hstep, ↓reduceIte]
    omega
  · simp only [hstep, ↓reduceIte]
    omega

theorem isPlace_first (start : Option Int) (len : Nat) (step : Int) :
    IsPlace len step (first start len step) := by
  cases start with
  | some i => exact isPlace_bound i len step
  | none =>
    simp only [IsPlace, first]
    split <;> omega

theorem isPlace_last (stop : Option Int) (len : Nat) (step : Int) :
    IsPlace len step (last stop len step) := by
  cases stop with
  | some i => exact isPlace_bound i len step
  | none =>
    simp only [IsPlace, last]
    split <;> omega

theorem resolve_eq_error {cause : Failure} :
    s.resolve len = .error cause ↔ s.step = some 0 ∧ cause = .zeroSliceStep := by
  have hstep : s.step.getD 1 = 0 ↔ s.step = some 0 := by
    cases s.step <;> simp
  simp only [resolve, ← hstep]
  by_cases h : s.step.getD 1 = 0 <;> simp [h, eq_comm]

theorem resolve_eq_ok :
    s.resolve len = .ok w ↔ s.step.getD 1 ≠ 0 ∧ w.step = max (s.step.getD 1) leastStep ∧
      w.start = first s.start len w.step ∧ w.stop = last s.stop len w.step ∧
      w.count = steps w.start w.stop w.step := by
  unfold resolve
  by_cases hstep : s.step.getD 1 = 0
  · simp [hstep]
  · simp only [hstep, ↓reduceIte, Except.ok.injEq, ne_eq, not_false_eq_true, true_and]
    constructor
    · rintro rfl
      exact ⟨rfl, rfl, rfl, rfl⟩
    · rintro ⟨h, hstart, hstop, hcount⟩
      cases w
      simp only at h hstart hstop hcount
      subst h hstart hstop hcount
      rfl

/-- A walk makes a step as long as it does not reach its end. -/
theorem lt_steps_iff {start stop step : Int} (hne : step ≠ 0) (k : Nat) :
    k < steps start stop step ↔
      if step < 0 then k * -step < start - stop else k * step < stop - start := by
  have hquot : ∀ gap stride : Int, 0 < gap → 0 < stride →
      (k < ((gap - 1) / stride + 1).toNat ↔ k * stride < gap) := by
    intro gap stride hgap hstride
    have hle := @Int.le_ediv_iff_mul_le k (gap - 1) stride hstride
    have hnonneg : 0 ≤ (gap - 1) / stride := Int.ediv_nonneg (by omega) (by omega)
    omega
  have hnone : ∀ gap stride : Int, gap ≤ 0 → 0 < stride → ¬ k * stride < gap := by
    intro gap stride hgap hstride
    have := Int.mul_nonneg (Int.natCast_nonneg k) (Int.le_of_lt hstride)
    omega
  unfold steps
  by_cases hneg : step < 0
  · simp only [hneg, ↓reduceIte]
    by_cases hgap : stop < start
    · simpa only [hgap, ↓reduceIte] using hquot (start - stop) (-step) (by omega) (by omega)
    · simpa [hgap] using hnone (start - stop) (-step) (by omega) (by omega)
  · simp only [hneg, ↓reduceIte]
    by_cases hgap : start < stop
    · simpa only [hgap, ↓reduceIte] using hquot (stop - start) step (by omega) (by omega)
    · simpa [hgap] using hnone (stop - start) step (by omega) (by omega)

end Slice

namespace Walk

open Slice (IsPlace)

variable {w : Walk} {len : Nat}

structure Within (w : Walk) (len : Nat) : Prop where
  step_ne_zero : w.step ≠ 0
  start : IsPlace len w.step w.start
  stop : IsPlace len w.step w.stop
  count : w.count = Slice.steps w.start w.stop w.step

theorem within_of_resolve {s : Slice} (h : s.resolve len = .ok w) : w.Within len := by
  obtain ⟨hne, hstep, hstart, hstop, hcount⟩ := Slice.resolve_eq_ok.mp h
  refine ⟨?_, ?_, ?_, hcount⟩
  · rw [hstep, Slice.leastStep]
    omega
  · rw [hstart]
    exact Slice.isPlace_first s.start len w.step
  · rw [hstop]
    exact Slice.isPlace_last s.stop len w.step

theorem contiguous_of_resolve {s : Slice} (h : s.resolve len = .ok w) :
    w.contiguous = true ↔ s.step.getD 1 = 1 := by
  obtain ⟨hne, hstep, -⟩ := Slice.resolve_eq_ok.mp h
  rw [contiguous, beq_iff_eq, hstep, Slice.leastStep]
  omega

namespace Within

/-- The walk does not leave the positions, in either direction. -/
theorem place_of_lt (h : w.Within len) {k : Nat} (hk : k < w.count) :
    0 ≤ w.start + k * w.step ∧ w.start + k * w.step < len := by
  have hstart := h.start
  have hstop := h.stop
  have hsteps := (Slice.lt_steps_iff h.step_ne_zero k).mp (h.count ▸ hk)
  by_cases hneg : w.step < 0
  · simp only [IsPlace, hneg, ↓reduceIte, Int.mul_neg] at hstart hstop hsteps
    have hback : (k : Int) * w.step ≤ 0 :=
      Int.mul_nonpos_of_nonneg_of_nonpos (by omega) (by omega)
    omega
  · simp only [IsPlace, hneg, ↓reduceIte] at hstart hstop hsteps
    have hon : 0 ≤ (k : Int) * w.step := Int.mul_nonneg (by omega) (by omega)
    omega

theorem lt_of_mem_positions (h : w.Within len) {i : Nat} (hi : i ∈ w.positions) : i < len := by
  obtain ⟨k, hk, rfl⟩ := mem_positions.mp hi
  have := h.place_of_lt hk
  unfold position
  omega

theorem range_of_step_one (h : w.Within len) (hstep : w.step = 1) :
    (w.rangeStart : Int) = w.start ∧ w.rangeEnd = w.rangeStart + w.count ∧ w.rangeEnd ≤ len := by
  have hstart := h.start
  have hstop := h.stop
  have hcount := h.count
  simp only [IsPlace, Slice.steps, hstep, Int.reduceLT, ↓reduceIte, Int.ediv_one]
    at hstart hstop hcount
  rw [rangeStart, rangeEnd, hcount]
  split <;> omega

theorem length_select {l : List α} (h : w.Within l.length) : (w.select l).length = w.count := by
  by_cases hstep : w.step = 1
  · obtain ⟨-, hend, hlen⟩ := h.range_of_step_one hstep
    simp only [select, contiguous, hstep, beq_self_eq_true, ↓reduceIte, List.length_drop,
      List.length_take]
    omega
  · have hread : ∀ i ∈ w.positions, (l.toArray[i]?).isSome = true := by
      intro i hi
      simpa using h.lt_of_mem_positions hi
    simp only [select, contiguous, beq_iff_eq, hstep, ↓reduceIte]
    rw [List.filterMap_length_eq_length.mpr hread, length_positions]

end Within

end Walk

end Tabular
