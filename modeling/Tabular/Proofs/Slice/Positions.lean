import Mathlib.Data.List.Perm.Subperm
import Tabular.Proofs.Slice

/-! # The positions of a walk

A walk touches the positions between its ends whose distance from the first is a multiple of the
step, once each and in the direction of the step. Its membership test, which starts from the lowest
position, decides the same set, and both ways of reading give the elements at these positions.
-/
namespace Tabular

namespace Walk

variable {w : Walk} {len : Nat} {i k : Nat}

/-- The places between the ends of a walk at a distance from the first that is a multiple of the
step. -/
def OnCourse (w : Walk) (i : Int) : Prop :=
  if w.step < 0 then w.stop < i ∧ i ≤ w.start ∧ -w.step ∣ w.start - i
  else w.start ≤ i ∧ i < w.stop ∧ w.step ∣ i - w.start

theorem exists_steps_of_dvd {stride distance : Int} (hstride : 0 < stride)
    (hdistance : 0 ≤ distance) (hdvd : stride ∣ distance) : ∃ k : Nat, distance = k * stride := by
  obtain ⟨q, rfl⟩ := hdvd
  obtain ⟨k, rfl⟩ := Int.eq_ofNat_of_zero_le (Int.nonneg_of_mul_nonneg_right hdistance hstride)
  exact ⟨k, Int.mul_comm stride k⟩

namespace Within

theorem position_cast (h : w.Within len) (hk : k < w.count) :
    (w.position k : Int) = w.start + k * w.step :=
  Int.toNat_of_nonneg (h.place_of_lt hk).1

theorem onCourse_position (h : w.Within len) (hk : k < w.count) : w.OnCourse (w.position k) := by
  have hsteps := (Slice.lt_steps_iff h.step_ne_zero k).mp (h.count ▸ hk)
  rw [OnCourse, h.position_cast hk]
  by_cases hneg : w.step < 0
  · simp only [hneg, ↓reduceIte, Int.mul_neg] at hsteps ⊢
    have hback : (k : Int) * w.step ≤ 0 :=
      Int.mul_nonpos_of_nonneg_of_nonpos (by omega) (by omega)
    refine ⟨by omega, by omega, ⟨k, ?_⟩⟩
    rw [Int.neg_mul, Int.mul_comm]
    omega
  · simp only [hneg, ↓reduceIte] at hsteps ⊢
    have hon : 0 ≤ (k : Int) * w.step := Int.mul_nonneg (by omega) (by omega)
    refine ⟨by omega, by omega, ⟨k, ?_⟩⟩
    rw [Int.mul_comm]
    omega

theorem exists_position_of_onCourse (h : w.Within len) (hi : w.OnCourse i) :
    ∃ k < w.count, w.position k = i := by
  obtain ⟨k, hk, hplace⟩ : ∃ k < w.count, (i : Int) = w.start + k * w.step := by
    have hlt := @Slice.lt_steps_iff w.start w.stop w.step h.step_ne_zero
    rw [← h.count] at hlt
    unfold OnCourse at hi
    by_cases hneg : w.step < 0
    · simp only [hneg, ↓reduceIte] at hi hlt
      obtain ⟨hstop, hstart, hdvd⟩ := hi
      obtain ⟨k, hk⟩ := exists_steps_of_dvd (by omega) (by omega) hdvd
      refine ⟨k, (hlt k).mpr (by omega), ?_⟩
      rw [Int.mul_neg] at hk
      omega
    · simp only [hneg, ↓reduceIte] at hi hlt
      obtain ⟨hstart, hstop, hdvd⟩ := hi
      have hne := h.step_ne_zero
      obtain ⟨k, hk⟩ := exists_steps_of_dvd (by omega) (by omega) hdvd
      exact ⟨k, (hlt k).mpr (by omega), by omega⟩
  exact ⟨k, hk, by rw [position]; omega⟩

theorem mem_positions_iff (h : w.Within len) : i ∈ w.positions ↔ w.OnCourse i := by
  rw [mem_positions]
  constructor
  · rintro ⟨k, hk, rfl⟩
    exact h.onCourse_position hk
  · exact h.exists_position_of_onCourse

theorem pairwise_positions (h : w.Within len) :
    w.positions.Pairwise fun i j => if w.step < 0 then j < i else i < j := by
  rw [positions, List.pairwise_map]
  refine List.pairwise_lt_range.imp_of_mem ?_
  intro j k hj hk hlt
  have hj' := h.position_cast (List.mem_range.mp hj)
  have hk' := h.position_cast (List.mem_range.mp hk)
  have hne := h.step_ne_zero
  by_cases hneg : w.step < 0
  · have := Int.mul_lt_mul_of_neg_right (show (j : Int) < k by omega) hneg
    simp only [hneg, ↓reduceIte]
    omega
  · have := Int.mul_lt_mul_of_pos_right (show (j : Int) < k by omega) (show 0 < w.step by omega)
    simp only [hneg, ↓reduceIte]
    omega

theorem nodup_positions (h : w.Within len) : w.positions.Nodup := by
  refine h.pairwise_positions.imp ?_
  intro i j hij
  by_cases hneg : w.step < 0 <;> simp only [hneg, ↓reduceIte] at hij <;> omega

theorem count_le (h : w.Within len) : w.count ≤ len := by
  have hsub : w.positions ⊆ List.range len := fun i hi =>
    List.mem_range.mpr (h.lt_of_mem_positions hi)
  simpa using (List.subperm_of_subset h.nodup_positions hsub).length_le

theorem stride_pos (h : w.Within len) : 0 < w.stride := by
  have := h.step_ne_zero
  rw [stride]
  omega

/-- Counted from the lowest position, a descending walk goes through the same steps backwards. -/
theorem position_eq_lowest (h : w.Within len) (hk : k < w.count) :
    w.position k = w.lowest + (if w.step < 0 then w.count - 1 - k else k) * w.stride := by
  have hcast := h.position_cast hk
  obtain ⟨m, hm⟩ : ∃ m, w.count = k + m + 1 := ⟨w.count - 1 - k, by omega⟩
  have hlast := h.place_of_lt (show w.count - 1 < w.count by omega)
  have hfirst := h.place_of_lt (show 0 < w.count by omega)
  have hne := h.step_ne_zero
  have hcount : ((w.count : Int) - 1) * w.step = k * w.step + m * w.step := by
    rw [← Int.add_mul, hm]
    congr 1
    omega
  rw [show ((w.count - 1 : Nat) : Int) = (w.count : Int) - 1 by omega] at hlast
  have hstride : (w.stride : Int) = if w.step < 0 then -w.step else w.step := by
    rw [stride]
    split <;> omega
  have hlowest : (w.lowest : Int) =
      if w.step < 0 then w.start + (w.count - 1) * w.step else w.start := by
    rw [lowest, if_neg (show w.count ≠ 0 by omega)]
    by_cases hneg : w.step < 0
    · rw [if_neg (by omega), if_pos hneg]
      exact Int.toNat_of_nonneg hlast.1
    · rw [if_pos (by omega), if_neg hneg]
      exact Int.toNat_of_nonneg (by omega)
  apply Int.ofNat_inj.mp
  rw [Int.natCast_add, Int.natCast_mul, hcast, hstride, hlowest]
  by_cases hneg : w.step < 0
  · simp only [hneg, ↓reduceIte]
    rw [hcount, show w.count - 1 - k = m by omega, Int.mul_neg]
    omega
  · simp only [hneg, ↓reduceIte]

theorem mem_positions_iff_lowest (h : w.Within len) :
    i ∈ w.positions ↔ ∃ m < w.count, i = w.lowest + m * w.stride := by
  rw [mem_positions]
  by_cases hneg : w.step < 0
  · constructor
    · rintro ⟨k, hk, rfl⟩
      refine ⟨w.count - 1 - k, by omega, ?_⟩
      rw [h.position_eq_lowest hk, if_pos hneg]
    · rintro ⟨m, hm, rfl⟩
      refine ⟨w.count - 1 - m, by omega, ?_⟩
      rw [h.position_eq_lowest (by omega), if_pos hneg]
      congr 2
      omega
  · constructor
    · rintro ⟨k, hk, rfl⟩
      exact ⟨k, hk, by rw [h.position_eq_lowest hk, if_neg hneg]⟩
    · rintro ⟨k, hk, rfl⟩
      exact ⟨k, hk, by rw [h.position_eq_lowest hk, if_neg hneg]⟩

theorem highest_lt (h : w.Within len) (hcount : 0 < w.count) :
    w.lowest + (w.count - 1) * w.stride < len :=
  h.lt_of_mem_positions (h.mem_positions_iff_lowest.mpr ⟨w.count - 1, by omega, rfl⟩)

theorem covers_iff (h : w.Within len) : w.covers i = true ↔ i ∈ w.positions := by
  rw [h.mem_positions_iff_lowest, covers]
  simp only [Bool.and_eq_true, bne_iff_ne, decide_eq_true_eq, beq_iff_eq]
  constructor
  · rintro ⟨hcount, ⟨hlow, hhigh⟩, hmod⟩
    have hdiv := Nat.div_mul_cancel (Nat.dvd_of_mod_eq_zero hmod)
    have hle : (i - w.lowest) / w.stride ≤ w.count - 1 := by
      apply Nat.le_of_mul_le_mul_right _ h.stride_pos
      omega
    exact ⟨(i - w.lowest) / w.stride, by omega, by omega⟩
  · rintro ⟨m, hm, rfl⟩
    have hle : m * w.stride ≤ (w.count - 1) * w.stride :=
      Nat.mul_le_mul_right w.stride (by omega)
    refine ⟨by omega, ⟨by omega, by omega⟩, ?_⟩
    rw [Nat.add_sub_cancel_left, Nat.mul_mod_left]

theorem position_of_step_one (h : w.Within len) (hstep : w.step = 1) (hk : k < w.count) :
    w.position k = w.rangeStart + k := by
  have hcast := h.position_cast hk
  have hrange := (h.range_of_step_one hstep).1
  rw [hstep] at hcast
  omega

/-- A contiguous range and single reads both give the elements at the positions, in walk order, and
no read is out of range. -/
theorem map_some_select {α : Type u} {l : List α} (h : w.Within l.length) :
    (w.select l).map some = w.positions.map fun i => l[i]? := by
  by_cases hstep : w.step = 1
  · obtain ⟨-, hend, hlen⟩ := h.range_of_step_one hstep
    apply List.ext_getElem
    · rw [List.length_map, List.length_map, h.length_select, length_positions]
    · intro k hk _
      rw [List.length_map, h.length_select] at hk
      simp only [select, contiguous, hstep, beq_self_eq_true, ↓reduceIte, positions,
        List.getElem_map, List.getElem_range, List.getElem_drop, List.getElem_take,
        h.position_of_step_one hstep hk]
      exact (List.getElem?_eq_getElem (by omega)).symm
  · simp only [select, contiguous, beq_iff_eq, hstep, ↓reduceIte, List.map_filterMap,
      List.getElem?_toArray]
    rw [List.filterMap_eq_map_iff_forall_eq_some]
    intro i hi
    rw [List.getElem?_eq_getElem (h.lt_of_mem_positions hi)]
    rfl

end Within

end Walk

end Tabular
