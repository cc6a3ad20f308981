import Tabular.Sequence.Sort

/-! # Stable sorting

Whatever elements are sorted by, sorting is one merge sort by one comparison. If that is a total
preorder, the result is in order, upwards or downwards, and elements that compare equal stand as
they stood before. Only one list is like that, so it does not matter by which path it is reached.
-/
namespace Tabular.Sequence

variable {α : Type u} {κ : Type v} {cmp : α → α → Ordering} {reverse : Bool}

def SortBy.order [NaturalOrd κ] : SortBy α κ → α → α → Ordering
  | .natural cmp => cmp
  | .comparison cmp => cmp
  | .key keyOf => fun a b => NaturalOrd.order (keyOf a) (keyOf b)

theorem sortWith_eq [NaturalOrd κ] (criterion : SortBy α κ) (reverse : Bool) (l : List α) :
    sortWith criterion reverse l = sortUnits criterion.order reverse l := by
  cases criterion with
  | natural cmp => rfl
  | comparison cmp => rfl
  | key keyOf =>
    have hkeyed := @List.map_mergeSort α (κ × α)
      (precedes (SortBy.key keyOf : SortBy α κ).order reverse)
      (precedes (fun p q => NaturalOrd.order p.1 q.1) reverse) (fun a => (keyOf a, a)) l
      fun _ _ _ _ => rfl
    rw [sortWith, sortUnits, ← hkeyed, List.map_map]
    exact List.map_id _

theorem precedes_trans [Std.TransCmp cmp] (reverse : Bool) (a b c : α)
    (hab : precedes cmp reverse a b = true) (hbc : precedes cmp reverse b c = true) :
    precedes cmp reverse a c = true := by
  cases reverse with
  | false => exact Std.TransCmp.isLE_trans hab hbc
  | true => exact Std.TransCmp.isLE_trans hbc hab

theorem precedes_total [Std.OrientedCmp cmp] (reverse : Bool) (a b : α) :
    (precedes cmp reverse a b || precedes cmp reverse b a) = true := by
  have hswap := @Std.OrientedCmp.eq_swap α cmp _ a b
  cases reverse <;> cases hba : cmp b a <;> simp [precedes, hswap, hba]

def InDirection (cmp : α → α → Ordering) (reverse : Bool) (a b : α) : Prop :=
  if reverse then cmp a b ≠ .lt else cmp a b ≠ .gt

theorem precedes_iff [Std.OrientedCmp cmp] {a b : α} :
    precedes cmp reverse a b = true ↔ InDirection cmp reverse a b := by
  have hswap := @Std.OrientedCmp.eq_swap α cmp _ a b
  cases reverse <;> cases hba : cmp b a <;> simp [precedes, InDirection, hswap, hba]

theorem precedes_of_eq [Std.OrientedCmp cmp] {a b : α} (h : cmp a b = .eq) :
    precedes cmp reverse b a = true := by
  have hswap := @Std.OrientedCmp.eq_swap α cmp _ b a
  cases reverse <;> simp [precedes, hswap, h]

/-- Marked elements come in the direction of the sort, and those that compare equal in the order of
their marks. -/
def Ordered (cmp : α → α → Ordering) (reverse : Bool) (a b : α × Nat) : Prop :=
  InDirection cmp reverse a.1 b.1 ∧ (cmp a.1 b.1 = .eq → a.2 < b.2)

theorem ordered_of_zipIdxLE [Std.OrientedCmp cmp] {a b : α × Nat}
    (h : List.zipIdxLE (precedes cmp reverse) a b = true) (hmarks : a.2 ≠ b.2) :
    Ordered cmp reverse a b := by
  rw [List.zipIdxLE] at h
  split at h
  case isTrue hab =>
    refine ⟨precedes_iff.mp hab, ?_⟩
    intro heq
    rw [if_pos (precedes_of_eq heq), decide_eq_true_eq] at h
    omega
  case isFalse => cases h

theorem pairwise_ordered [Std.TransCmp cmp] (reverse : Bool) (l : List α) :
    (l.zipIdx.mergeSort (List.zipIdxLE (precedes cmp reverse))).Pairwise (Ordered cmp reverse) := by
  have hsorted := List.pairwise_mergeSort (List.zipIdxLE_trans (@precedes_trans α cmp _ reverse))
    (List.zipIdxLE_total (@precedes_total α cmp _ reverse)) l.zipIdx
  have hmarks : (l.zipIdx.mergeSort (List.zipIdxLE (precedes cmp reverse))).Pairwise
      fun a b => a.2 ≠ b.2 := by
    have hnodup : (l.zipIdx.map Prod.snd).Nodup := by
      rw [List.zipIdx_map_snd]
      exact List.nodup_range'
    have hperm := (List.mergeSort_perm l.zipIdx (List.zipIdxLE (precedes cmp reverse))).map Prod.snd
    exact List.pairwise_map.mp (hperm.nodup_iff.mpr hnodup)
  exact (hsorted.and hmarks).imp fun ⟨hle, hne⟩ => ordered_of_zipIdxLE hle hne

/-- Sorting rearranges the elements. They come in the direction asked for, and of two that compare
equal the one that stood first still does: marked with their places, they are in order by marks. -/
theorem sortWith_stable [NaturalOrd κ] (criterion : SortBy α κ) [Std.TransCmp criterion.order]
    (reverse : Bool) (l : List α) :
    (sortWith criterion reverse l).Perm l ∧
    (sortWith criterion reverse l).Pairwise (InDirection criterion.order reverse) ∧
    ∃ marked : List (α × Nat), marked.Perm l.zipIdx ∧
      marked.map Prod.fst = sortWith criterion reverse l ∧
      marked.Pairwise (Ordered criterion.order reverse) := by
  have hmarked := @pairwise_ordered α criterion.order _ reverse l
  have hfst := @List.mergeSort_zipIdx α (precedes criterion.order reverse) l
  rw [sortWith_eq, sortUnits]
  refine ⟨List.mergeSort_perm l _, ?_, _, List.mergeSort_perm _ _, hfst, hmarked⟩
  rw [← hfst, List.pairwise_map]
  exact hmarked.imp And.left

/-- Two elements with the same key, in reverse. -/
theorem sortWith_stable_ties :
    let byFirst : SortBy (Nat × Char) Nat := .key Prod.fst
    sortWith byFirst true [(1, 'b'), (0, 'a'), (1, 'a')] = [(1, 'b'), (1, 'a'), (0, 'a')] ∧
      ∃ marked : List ((Nat × Char) × Nat),
        marked.Perm [((1, 'b'), 0), ((0, 'a'), 1), ((1, 'a'), 2)] ∧
        marked.map Prod.fst = [(1, 'b'), (1, 'a'), (0, 'a')] ∧
        marked.Pairwise (Ordered byFirst.order true) := by
  intro byFirst
  have hpreorder : Std.TransCmp byFirst.order :=
    inferInstanceAs (Std.TransCmp (compareOn Prod.fst))
  have hsorted : sortWith byFirst true [(1, 'b'), (0, 'a'), (1, 'a')] =
      [(1, 'b'), (1, 'a'), (0, 'a')] := by
    simp [byFirst, sortWith_eq, sortUnits, List.mergeSort, List.MergeSort.Internal.splitInTwo,
      precedes, SortBy.order, NaturalOrd.order, Nat.compare_eq_ite_lt]
  obtain ⟨-, -, marked, hperm, hfst, hordered⟩ :=
    sortWith_stable byFirst true [(1, 'b'), (0, 'a'), (1, 'a')]
  exact ⟨hsorted, marked, hperm, hfst.trans hsorted, hordered⟩

/-- The marked elements of a list, arranged by a comparison so that ties keep their places. -/
structure Arranged (cmp : α → α → Ordering) (reverse : Bool) (l : List α)
    (marked : List (α × Nat)) : Prop where
  perm : marked.Perm l.zipIdx
  ordered : marked.Pairwise (Ordered cmp reverse)

theorem arranged_mergeSort [Std.TransCmp cmp] (reverse : Bool) (l : List α) :
    Arranged cmp reverse l (l.zipIdx.mergeSort (List.zipIdxLE (precedes cmp reverse))) :=
  ⟨List.mergeSort_perm _ _, pairwise_ordered reverse l⟩

theorem eq_of_inDirection [Std.OrientedCmp cmp] {a b : α} (hab : InDirection cmp reverse a b)
    (hba : InDirection cmp reverse b a) : cmp a b = .eq := by
  have hswap := @Std.OrientedCmp.eq_swap α cmp _ b a
  cases reverse <;> cases h : cmp a b <;> simp_all [InDirection]

theorem not_ordered_of_ordered [Std.OrientedCmp cmp] {a b : α × Nat} (h : Ordered cmp reverse a b) :
    ¬ Ordered cmp reverse b a := by
  intro h'
  have hmark := h.2 (eq_of_inDirection h.1 h'.1)
  have hmark' := h'.2 (eq_of_inDirection h'.1 h.1)
  omega

namespace Arranged

variable {l : List α} {marked marked' : List (α × Nat)}

theorem unique [Std.OrientedCmp cmp] (h : Arranged cmp reverse l marked)
    (h' : Arranged cmp reverse l marked') : marked = marked' := by
  refine List.Perm.eq_of_pairwise ?_ h.ordered h'.ordered (h.perm.trans h'.perm.symm)
  intro a b _ _ hab hba
  exact absurd hba (not_ordered_of_ordered hab)

theorem sortUnits_eq [Std.TransCmp cmp] (h : Arranged cmp reverse l marked) :
    sortUnits cmp reverse l = marked.map Prod.fst := by
  rw [h.unique (arranged_mergeSort reverse l), List.mergeSort_zipIdx, sortUnits]

end Arranged

def fromEnd (n : Nat) (a : α × Nat) : α × Nat := (a.1, n - 1 - a.2)

theorem map_fromEnd_zipIdx_reverse (l : List α) :
    (l.reverse.zipIdx.map (fromEnd l.length)).reverse = l.zipIdx := by
  apply List.ext_getElem
  · simp
  · intro i hi hi'
    have hlt : i < l.length := by simpa using hi'
    have hplace : l.length - 1 - (l.length - 1 - i) = i := by omega
    simp [fromEnd, List.getElem_reverse, hplace]

theorem inDirection_not [Std.OrientedCmp cmp] {a b : α} :
    InDirection cmp (!reverse) b a ↔ InDirection cmp reverse a b := by
  have hswap := @Std.OrientedCmp.eq_swap α cmp _ b a
  cases reverse <;> cases h : cmp a b <;> simp [InDirection, hswap, h]

theorem Ordered.fromEnd [Std.OrientedCmp cmp] {n : Nat} {a b : α × Nat} (hb : b.2 < n)
    (h : Ordered cmp reverse a b) :
    Ordered cmp (!reverse) (Sequence.fromEnd n b) (Sequence.fromEnd n a) := by
  refine ⟨inDirection_not.mpr h.1, ?_⟩
  intro htie
  have hmark := h.2 (Std.OrientedCmp.eq_symm htie)
  show n - 1 - b.2 < n - 1 - a.2
  omega

/-- An arrangement of the list turned around, turned around itself, goes in the other direction. -/
theorem Arranged.turned [Std.OrientedCmp cmp] {l : List α} {marked : List (α × Nat)}
    (h : Arranged cmp reverse l.reverse marked) :
    Arranged cmp (!reverse) l (marked.map (fromEnd l.length)).reverse := by
  constructor
  · have hperm := h.perm.map (fromEnd l.length)
    rw [← map_fromEnd_zipIdx_reverse l]
    exact (List.reverse_perm _).trans (hperm.trans (List.reverse_perm _).symm)
  · rw [List.pairwise_reverse, List.pairwise_map]
    refine h.ordered.imp_of_mem ?_
    intro a b _ hb hab
    obtain ⟨-, hlt, -⟩ := List.mem_zipIdx (h.perm.mem_iff.mp hb)
    exact hab.fromEnd (by simpa using hlt)

theorem sortUnits_not [Std.TransCmp cmp] (reverse : Bool) (l : List α) :
    sortUnits cmp (!reverse) l = (sortUnits cmp reverse l.reverse).reverse := by
  have hsorted := @arranged_mergeSort α cmp _ reverse l.reverse
  rw [hsorted.turned.sortUnits_eq, hsorted.sortUnits_eq, List.map_reverse, List.map_map]
  rfl

/-- The paths to a sorted list agree. To sort by keys is to sort by the comparison of the keys, and
to sort in reverse is to turn the list around before and after sorting it upwards, ties included. -/
theorem sort_paths_agree [NaturalOrd κ] (l : List α) :
    (∀ (key : α → κ) (reverse : Bool), sortByKey key reverse l =
      sortBy (fun a b => NaturalOrd.order (key a) (key b)) reverse l) ∧
    ∀ (criterion : SortBy α κ) [Std.TransCmp criterion.order],
      sortWith criterion true l = (sortWith criterion false l.reverse).reverse := by
  constructor
  · intro key reverse
    rw [sortByKey, sortBy, sortWith_eq, sortWith_eq]
    rfl
  · intro criterion _
    rw [sortWith_eq, sortWith_eq]
    exact sortUnits_not false l

/-- Two elements with the same key, in reverse by all three paths. -/
theorem sort_paths_agree_ties :
    let l := [(1, 'b'), (0, 'a'), (1, 'a')]
    let sorted := [(1, 'b'), (1, 'a'), (0, 'a')]
    let byFirst : SortBy (Nat × Char) Nat := .key Prod.fst
    sortByKey (Prod.fst : Nat × Char → Nat) true l = sorted ∧
      sortBy (fun a b : Nat × Char => NaturalOrd.order a.1 b.1) true l = sorted ∧
      (sortWith byFirst false l.reverse).reverse = sorted := by
  intro l sorted byFirst
  have hpreorder : Std.TransCmp byFirst.order :=
    inferInstanceAs (Std.TransCmp (compareOn Prod.fst))
  have hsorted : sortWith byFirst true l = sorted := by
    simp [l, sorted, byFirst, sortWith_eq, sortUnits, List.mergeSort,
      List.MergeSort.Internal.splitInTwo, precedes, SortBy.order, NaturalOrd.order,
      Nat.compare_eq_ite_lt]
  obtain ⟨hkeys, hturned⟩ := @sort_paths_agree (Nat × Char) Nat _ l
  exact ⟨hsorted, (hkeys Prod.fst true).symm.trans hsorted,
    (hturned byFirst).symm.trans hsorted⟩

end Tabular.Sequence
