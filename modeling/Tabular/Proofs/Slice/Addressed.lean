import Mathlib.Data.Int.Basic
import Mathlib.Data.List.Sort
import Tabular.Proofs.Slice.Positions

/-! # The positions that a slice addresses

A slice addresses the positions between its bounds whose distance from the first is a multiple of
the given step. The walk it resolves to touches exactly these, upwards or downwards as the step
leads. A step beyond the least one that is kept makes no difference, since no length has room for
two of its positions.
-/
namespace Tabular

namespace Slice

variable {s : Slice} {len : Nat} {w : Walk} {i : Nat}

/-- A bound as a place from `low` to `high`: a negative one is offset by the length, once, and then
clamped. -/
def placeOf (given : Option Int) (len : Nat) (absent low high : Int) : Int :=
  match given with
  | none => absent
  | some i => max low (min (if i < 0 then i + len else i) high)

def origin (s : Slice) (len : Nat) : Int :=
  if 0 < s.step.getD 1 then placeOf s.start len 0 0 len
  else placeOf s.start len (len - 1) (-1) (len - 1)

def limit (s : Slice) (len : Nat) : Int :=
  if 0 < s.step.getD 1 then placeOf s.stop len len 0 len
  else placeOf s.stop len (-1) (-1) (len - 1)

def Addresses (s : Slice) (len i : Nat) : Prop :=
  if 0 < s.step.getD 1 then
    s.origin len ≤ i ∧ i < s.limit len ∧ s.step.getD 1 ∣ i - s.origin len
  else s.limit len < i ∧ i ≤ s.origin len ∧ -s.step.getD 1 ∣ s.origin len - i

instance (s : Slice) (len : Nat) : DecidablePred (s.Addresses len) := fun i =>
  inferInstanceAs (Decidable (if 0 < s.step.getD 1 then
    s.origin len ≤ i ∧ i < s.limit len ∧ s.step.getD 1 ∣ i - s.origin len
  else s.limit len < i ∧ i ≤ s.origin len ∧ -s.step.getD 1 ∣ s.origin len - i))

def addressed (s : Slice) (len : Nat) : List Nat :=
  if 0 < s.step.getD 1 then (List.range len).filter fun i => s.Addresses len i
  else (List.range len).reverse.filter fun i => s.Addresses len i

/-- The positions that the walk of a slice touches, none if the slice is refused. -/
def touched (s : Slice) (len : Nat) : List Nat :=
  match s.resolve len with
  | .ok w => w.positions
  | .error _ => []

theorem exists_resolve (h : s.step ≠ some 0) (len : Nat) : ∃ w, s.resolve len = .ok w := by
  cases hwalk : s.resolve len with
  | ok w => exact ⟨w, rfl⟩
  | error cause => exact absurd (resolve_eq_error.mp hwalk).1 h

theorem step_pos_iff (h : s.resolve len = .ok w) : 0 < s.step.getD 1 ↔ ¬ w.step < 0 := by
  obtain ⟨hne, hstep, -⟩ := resolve_eq_ok.mp h
  rw [hstep, leastStep]
  omega

theorem step_eq_one_iff (h : s.resolve len = .ok w) : w.step = 1 ↔ s.step.getD 1 = 1 := by
  rw [← Walk.contiguous_of_resolve h, Walk.contiguous, beq_iff_eq]

theorem start_eq_origin (h : s.resolve len = .ok w) : w.start = s.origin len := by
  obtain ⟨-, -, hstart, -⟩ := resolve_eq_ok.mp h
  rw [hstart, origin]
  simp only [step_pos_iff h, ite_not]
  cases s.start <;> rfl

theorem stop_eq_limit (h : s.resolve len = .ok w) : w.stop = s.limit len := by
  obtain ⟨-, -, -, hstop, -⟩ := resolve_eq_ok.mp h
  rw [hstop, limit]
  simp only [step_pos_iff h, ite_not]
  cases s.stop <;> rfl

/-- A distance short of both strides is a multiple of one of them only if it is zero. -/
theorem dvd_iff_of_lt {distance a b : Int} (h : 0 ≤ distance) (ha : distance < a)
    (hb : distance < b) : a ∣ distance ↔ b ∣ distance := by
  constructor
  · intro hdvd
    rw [Int.eq_zero_of_dvd_of_nonneg_of_lt h ha hdvd]
    exact Int.dvd_zero b
  · intro hdvd
    rw [Int.eq_zero_of_dvd_of_nonneg_of_lt h hb hdvd]
    exact Int.dvd_zero a

theorem onCourse_iff_addresses (h : s.resolve len = .ok w) (hlen : len < 0x8000000000000000) :
    w.OnCourse i ↔ s.Addresses len i := by
  obtain ⟨-, hstep, -⟩ := resolve_eq_ok.mp h
  have hplace := (Walk.within_of_resolve h).start
  rw [Walk.OnCourse, Addresses, ← start_eq_origin h, ← stop_eq_limit h]
  simp only [step_pos_iff h, ite_not]
  by_cases hkept : w.step = s.step.getD 1
  · rw [hkept]
  · -- The step was raised to the least one that is kept. Both strides exceed every distance.
    rw [leastStep] at hstep
    have hneg : w.step < 0 := by omega
    simp only [IsPlace, hneg, ↓reduceIte] at hplace ⊢
    constructor
    · rintro ⟨hstop, hstart, hdvd⟩
      refine ⟨hstop, hstart, (dvd_iff_of_lt ?_ ?_ ?_).mp hdvd⟩ <;> omega
    · rintro ⟨hstop, hstart, hdvd⟩
      refine ⟨hstop, hstart, (dvd_iff_of_lt ?_ ?_ ?_).mpr hdvd⟩ <;> omega

/-- Both lists go in the direction of the step and have the same members. -/
theorem positions_eq_addressed (h : s.resolve len = .ok w) (hlen : len < 0x8000000000000000) :
    w.positions = s.addressed len := by
  have hwithin := Walk.within_of_resolve h
  have hmem : ∀ i, i ∈ w.positions ↔ i < len ∧ s.Addresses len i := by
    intro i
    rw [← onCourse_iff_addresses h hlen, ← hwithin.mem_positions_iff]
    exact ⟨fun hi => ⟨hwithin.lt_of_mem_positions hi, hi⟩, And.right⟩
  have hsorted := hwithin.pairwise_positions
  simp only [addressed, step_pos_iff h, ite_not]
  by_cases hneg : w.step < 0
  · simp only [hneg, ↓reduceIte] at hsorted ⊢
    apply hsorted.eq_of_mem_iff ((List.pairwise_reverse.mpr List.pairwise_lt_range).filter _)
    simpa using hmem
  · simp only [hneg, ↓reduceIte] at hsorted ⊢
    apply hsorted.eq_of_mem_iff (List.pairwise_lt_range.filter _)
    simpa using hmem

end Slice

end Tabular
