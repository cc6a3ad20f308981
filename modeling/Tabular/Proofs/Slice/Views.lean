import Mathlib.Order.Bounds.Defs
import Tabular.Proofs.Slice.Checked

/-! # Views of a walk

A walk is read in three ways besides going through its positions: a test for single positions, the
lowest position with the stride, and, if the step is one, a range. Each is computed from the ends of
the walk by a formula of its own, in words, and none of these formulas overflows. All of them
describe the positions that the walk goes through.
-/
namespace Tabular

namespace Walk

open Word

variable {w : Walk} {len : Nat} {i : Nat}

def upward (w : Walk) : List Nat := (List.range w.count).map fun m => w.lowest + m * w.stride

def ascending? (w : Walk) : Option (Nat × Nat) := do
  let stride ← unsigned w.step.natAbs
  if w.count = 0 then some (0, stride)
  else if 0 < w.step then do
    let low ← size w.start
    some (low, stride)
  else do
    let count ← signed w.count
    let last ← signed (count - 1)
    let offset ← signed (last * w.step)
    let place ← signed (w.start + offset)
    let low ← size place
    some (low, stride)

def covers? (w : Walk) (i : Nat) : Option Bool :=
  if w.count = 0 then some false
  else do
    let (low, stride) ← w.ascending?
    let last ← unsigned (w.count - 1)
    let span ← unsigned (last * stride)
    let high ← unsigned (low + span)
    if low ≤ i ∧ i ≤ high then do
      let distance ← unsigned (i - low)
      if stride = 0 then none else some (distance % stride == 0)
    else some false

namespace Within

theorem isLeast_lowest (h : w.Within len) (hcount : 0 < w.count) :
    IsLeast {i | i ∈ w.positions} w.lowest := by
  constructor
  · exact h.mem_positions_iff_lowest.mpr ⟨0, hcount, by omega⟩
  · intro i hi
    obtain ⟨m, -, rfl⟩ := h.mem_positions_iff_lowest.mp hi
    exact Nat.le_add_right w.lowest (m * w.stride)

theorem pairwise_upward (h : w.Within len) : w.upward.Pairwise (· < ·) := by
  rw [upward, List.pairwise_map]
  refine List.pairwise_lt_range.imp ?_
  intro j k hlt
  have := Nat.mul_lt_mul_of_pos_right hlt h.stride_pos
  omega

theorem positions_perm_upward (h : w.Within len) : w.positions.Perm w.upward := by
  rw [List.perm_ext_iff_of_nodup h.nodup_positions (h.pairwise_upward.imp Nat.ne_of_lt)]
  intro i
  rw [h.mem_positions_iff_lowest, upward, List.mem_map]
  simp only [List.mem_range, eq_comm]

theorem positions_eq_range (h : w.Within len) (hstep : w.step = 1) :
    w.positions = List.range' w.rangeStart (w.rangeEnd - w.rangeStart) := by
  obtain ⟨-, hend, -⟩ := h.range_of_step_one hstep
  rw [hend, Nat.add_sub_cancel_left, List.range'_eq_map_range, positions]
  apply List.map_congr_left
  intro k hk
  exact h.position_of_step_one hstep (List.mem_range.mp hk)

theorem ascending?_eq (h : w.Within len) (hlen : len < 0x8000000000000000)
    (hstep : w.step.natAbs < 0x8000000000000000) : w.ascending? = some (w.lowest, w.stride) := by
  have hstride : unsigned w.step.natAbs = some w.stride :=
    unsigned_eq rfl (by rw [stride]; omega)
  have hcount := h.count_le
  rw [ascending?, lowest, hstride, Option.bind_eq_bind, Option.bind_some]
  by_cases hnone : w.count = 0
  · simp only [hnone, ↓reduceIte]
  simp only [hnone, ↓reduceIte]
  by_cases hpos : 0 < w.step
  · have hfirst := h.place_of_lt (show 0 < w.count by omega)
    simp (disch := omega) only [hpos, ↓reduceIte, size_eq, Option.bind_some]
  · -- Going down, the lowest position is the last, and the way to it is shorter than the length.
    have hstart := h.start
    have hlast := h.place_of_lt (show w.count - 1 < w.count by omega)
    rw [show ((w.count - 1 : Nat) : Int) = (w.count : Int) - 1 by omega] at hlast
    have hneg : w.step < 0 := by
      have := h.step_ne_zero
      omega
    simp only [Slice.IsPlace, hneg, ↓reduceIte] at hstart
    simp (disch := omega) only [hpos, ↓reduceIte, signed_eq, size_eq, Option.bind_eq_bind,
      Option.bind_some]

theorem covers?_eq (h : w.Within len) (hlen : len < 0x8000000000000000)
    (hstep : w.step.natAbs < 0x8000000000000000) (i : Nat) :
    w.covers? i = some (w.covers i) := by
  rw [covers?, covers]
  by_cases hnone : w.count = 0
  · simp [hnone]
  have hpos := h.stride_pos
  have hcount := h.count_le
  have hhigh := h.highest_lt (by omega)
  have hlast : unsigned ((w.count : Int) - 1) = some (w.count - 1) :=
    unsigned_eq (by omega) (by omega)
  have hspan : unsigned (((w.count - 1 : Nat) : Int) * w.stride) =
      some ((w.count - 1) * w.stride) := unsigned_eq (Int.natCast_mul _ _).symm (by omega)
  have hsum : unsigned ((w.lowest : Int) + ((w.count - 1) * w.stride : Nat)) =
      some (w.lowest + (w.count - 1) * w.stride) := unsigned_eq (by omega) (by omega)
  rw [if_neg hnone, h.ascending?_eq hlen hstep]
  simp only [Option.bind_eq_bind, Option.bind_some]
  rw [hlast, Option.bind_some, hspan, Option.bind_some, hsum, Option.bind_some]
  by_cases hinside : w.lowest ≤ i ∧ i ≤ w.lowest + (w.count - 1) * w.stride
  · have hdistance : unsigned ((i : Int) - w.lowest) = some (i - w.lowest) :=
      unsigned_eq (by omega) (by omega)
    rw [if_pos hinside, hdistance, Option.bind_some, if_neg (by omega)]
    simp [hnone, hinside.1, hinside.2]
  · rw [if_neg hinside]
    simp only [not_and_or] at hinside
    rcases hinside with hbelow | habove
    · simp [hbelow]
    · simp [habove]

end Within

theorem natAbs_step_lt {start stop step : Option Int64}
    (h : (Slice.ofWords start stop step).resolve len = .ok w) :
    w.step.natAbs < 0x8000000000000000 := by
  obtain ⟨-, hstep, -⟩ := Slice.resolve_eq_ok.mp h
  rw [Slice.leastStep, Slice.ofWords] at hstep
  cases step with
  | none =>
    rw [Option.map_none, Option.getD_none] at hstep
    omega
  | some i =>
    have hhigh := i.toInt_lt
    rw [Option.map_some, Option.getD_some] at hstep
    omega

/-- For bounds, a step and a length that are words, the membership test, the lowest position with
the stride, and the range of a walk by ones are computed without overflow and describe the positions
of the walk, none of which comes twice. A range whose stop does not lie behind its start is empty at
the start. -/
theorem views_agree (start stop step : Option Int64) {len : Nat}
    (hlen : len < 0x8000000000000000) (hstep : step ≠ some 0) :
    let s := Slice.ofWords start stop step
    ∃ w, s.resolve len = .ok w ∧ w.positions.Nodup ∧
      (∀ i, w.covers? i = some (w.covers i) ∧ (w.covers i = true ↔ i ∈ w.positions)) ∧
      (0 < w.count → w.ascending? = some (w.lowest, w.stride) ∧ w.stride = w.step.natAbs ∧
        IsLeast {i | i ∈ w.positions} w.lowest ∧ w.lowest + (w.count - 1) * w.stride < len ∧
        w.positions.Perm w.upward ∧ w.upward.Pairwise (· < ·)) ∧
      (w.step = 1 → w.positions = List.range' w.rangeStart (w.rangeEnd - w.rangeStart) ∧
        w.rangeStart ≤ w.rangeEnd ∧ w.rangeEnd ≤ len ∧ (w.rangeStart : Int) = s.origin len ∧
        (s.limit len ≤ s.origin len → w.rangeEnd = w.rangeStart)) := by
  intro s
  obtain ⟨w, hwalk⟩ := Slice.exists_resolve (mt Slice.step_ofWords_eq_zero_iff.mp hstep) len
  have hwithin := within_of_resolve hwalk
  have hword := natAbs_step_lt hwalk
  refine ⟨w, hwalk, hwithin.nodup_positions, ?_, ?_, ?_⟩
  · intro i
    exact ⟨hwithin.covers?_eq hlen hword i, hwithin.covers_iff⟩
  · intro hcount
    exact ⟨hwithin.ascending?_eq hlen hword, rfl, hwithin.isLeast_lowest hcount,
      hwithin.highest_lt hcount, hwithin.positions_perm_upward, hwithin.pairwise_upward⟩
  · intro hone
    obtain ⟨hstart, hend, hle⟩ := hwithin.range_of_step_one hone
    refine ⟨hwithin.positions_eq_range hone, by omega, hle, ?_, ?_⟩
    · rw [hstart, Slice.start_eq_origin hwalk]
    · intro hempty
      rw [← Slice.stop_eq_limit hwalk, ← Slice.start_eq_origin hwalk] at hempty
      rw [rangeEnd, rangeStart, Int.max_eq_right hempty]

/-- The greatest length with the least step, and a walk by ones from five to two. -/
theorem views_agree_extremes :
    let far := Slice.ofWords none none (some Int64.minValue)
    let back := Slice.ofWords (some 5) (some 2) none
    (∃ w, far.resolve 0x7fffffffffffffff = .ok w ∧ w.positions = [0x7ffffffffffffffe] ∧
      w.covers? 0x7ffffffffffffffe = some true ∧ w.covers 0x7fffffffffffffff = false ∧
      IsLeast {i | i ∈ w.positions} w.lowest) ∧
    ∃ w, back.resolve 10 = .ok w ∧ w.positions = [] ∧ w.rangeStart = 5 ∧ w.rangeEnd = 5 := by
  intro far back
  constructor
  · obtain ⟨w, hwalk, -, hcovers, hlowest, -⟩ :=
      @views_agree none none (some Int64.minValue) 0x7fffffffffffffff (by decide) (by decide)
    have hw : w = ⟨0x7ffffffffffffffe, -1, -0x7fffffffffffffff, 1⟩ :=
      Except.ok.inj (hwalk.symm.trans (by decide))
    subst hw
    have hpositions : (⟨0x7ffffffffffffffe, -1, -0x7fffffffffffffff, 1⟩ : Walk).positions =
        [0x7ffffffffffffffe] := by decide
    refine ⟨_, hwalk, hpositions, ?_, ?_, (hlowest (by decide)).2.2.1⟩
    · rw [(hcovers _).1, (hcovers _).2.mpr (by simp [hpositions])]
    · rw [← Bool.not_eq_true, (hcovers _).2, hpositions]
      decide
  · obtain ⟨w, hwalk, -, -, -, hrange⟩ :=
      @views_agree (some 5) (some 2) none 10 (by decide) (by decide)
    obtain ⟨hpositions, -, -, hstart, hempty⟩ :=
      hrange ((Slice.step_eq_one_iff hwalk).mpr (by decide))
    have hend := hempty (by decide)
    have horigin : (Slice.ofWords (some 5) (some 2) none).origin 10 = 5 := by decide
    refine ⟨w, hwalk, ?_, by omega, by omega⟩
    rw [hpositions, hend, Nat.sub_self, List.range'_zero]

end Walk

end Tabular
