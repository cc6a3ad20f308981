import Tabular.Proofs.Shape

/-! # The natural order is a total order

The natural order of every shape is a total order: turning the values around turns the answer
around, it is transitive, and only values that are the same compare equal. Each way of building
values keeps these laws, so they hold at any depth. Floating-point values are compared by words
whose bits below the sign are flipped for negative values, which makes all bit patterns, NaNs and
both zeros included, a chain.
-/
namespace Tabular

open NaturalOrd (order lexicographic)

namespace NaturalOrd

variable {α : Type u} {β : Type v} {cmp : α → α → Ordering}

theorem lexicographic_eq_compareLex (cmp : α → α → Ordering) :
    lexicographic cmp = List.compareLex cmp := by
  funext l m
  induction l generalizing m with
  | nil => cases m <;> rfl
  | cons a l ih =>
    cases m with
    | nil => rfl
    | cons b m => rw [lexicographic, List.compareLex_cons_cons, ih]

instance [Std.TransCmp cmp] : Std.TransCmp (lexicographic cmp) :=
  lexicographic_eq_compareLex cmp ▸ inferInstance

theorem lexicographic_eq_eq_iff {same : α → α → Prop} (h : ∀ a b, cmp a b = .eq ↔ same a b)
    (l m : List α) : lexicographic cmp l m = .eq ↔ List.Forall₂ same l m := by
  induction l generalizing m with
  | nil => cases m <;> simp [lexicographic]
  | cons a l ih =>
    cases m with
    | nil => simp [lexicographic]
    | cons b m => rw [lexicographic, Ordering.then_eq_eq, List.forall₂_cons, h, ih]

theorem transCmp_on (h : Std.TransCmp cmp) (part : β → α) :
    Std.TransCmp fun a b => cmp (part a) (part b) where
  eq_swap := h.eq_swap
  isLE_trans := h.isLE_trans

theorem transCmp_option [NaturalOrd α] (h : Std.TransCmp (@order α _)) :
    Std.TransCmp (@order (Option α) _) := by
  let _ : Ord α := ⟨order⟩
  have _ : Std.TransOrd α := h
  have heq : @order (Option α) _ = compare := by
    funext a b
    cases a <;> cases b <;> rfl
  exact heq ▸ inferInstance

theorem transCmp_pair [NaturalOrd α] [NaturalOrd β] (h₁ : Std.TransCmp (@order α _))
    (h₂ : Std.TransCmp (@order β _)) : Std.TransCmp (@order (α × β) _) := by
  have hfirst : Std.TransCmp fun p q : α × β => order p.1 q.1 := transCmp_on h₁ Prod.fst
  have hsecond : Std.TransCmp fun p q : α × β => order p.2 q.2 := transCmp_on h₂ Prod.snd
  exact inferInstanceAs (Std.TransCmp
    (compareLex (fun p q : α × β => order p.1 q.1) fun p q => order p.2 q.2))

end NaturalOrd

section signFolded

variable {n : Nat} (word : BitVec (n + 1))

/-- A word with its sign laid over all bits below. -/
def signFolded : BitVec (n + 1) := word ^^^ (word.sshiftRight n >>> 1)

theorem getLsbD_signFolded (i : Nat) :
    (signFolded word).getLsbD i = (word.getLsbD i ^^ (decide (i < n) && word.msb)) := by
  rw [signFolded, BitVec.getLsbD_xor, BitVec.getLsbD_ushiftRight, BitVec.getLsbD_sshiftRight]
  have hsign : ¬ n + (1 + i) < n + 1 := by omega
  have hout : n + 1 ≤ 1 + i ↔ ¬ i < n := by omega
  by_cases hi : i < n <;> simp [hi, hsign, hout]

theorem msb_signFolded : (signFolded word).msb = word.msb := by
  rw [BitVec.msb_eq_getLsbD_last, getLsbD_signFolded, BitVec.msb_eq_getLsbD_last]
  simp

theorem signFolded_signFolded : signFolded (signFolded word) = word := by
  apply BitVec.eq_of_getLsbD_eq
  intro i _
  rw [getLsbD_signFolded, getLsbD_signFolded, msb_signFolded, Bool.xor_assoc, Bool.xor_self,
    Bool.xor_false]

theorem signFolded_inj {a b : BitVec (n + 1)} : signFolded a = signFolded b ↔ a = b := by
  constructor
  · intro h
    rw [← signFolded_signFolded a, h, signFolded_signFolded]
  · rintro rfl
    rfl

theorem signFolded_eq :
    signFolded word =
      if word.msb then ~~~((word.setWidth n).setWidth (n + 1))
      else (word.setWidth n).setWidth (n + 1) := by
  apply BitVec.eq_of_getLsbD_eq
  intro i hi
  rw [getLsbD_signFolded]
  by_cases hbelow : i < n
  · cases word.msb <;> simp [hbelow, hi]
  · have hlast : i = n := by omega
    subst i
    cases hsign : word.msb <;> simpa [BitVec.msb_eq_getLsbD_last] using hsign

/-- As a number the folded word is the bits below the sign, counted down from `-1` if it is set. -/
theorem toInt_signFolded :
    (signFolded word).toInt =
      if word.msb then -((word.setWidth n).toNat : Int) - 1 else (word.setWidth n).toNat := by
  have hbits := (word.setWidth n).isLt
  have hwiden : ((word.setWidth n).setWidth (n + 1)).toNat = (word.setWidth n).toNat :=
    BitVec.toNat_setWidth_of_le (Nat.le_succ n)
  rw [signFolded_eq, BitVec.toInt_eq_toNat_cond]
  generalize (word.setWidth n).toNat = bits at hbits hwiden
  cases word.msb with
  | false =>
    simp only [hwiden, Nat.pow_succ', Bool.false_eq_true, if_false]
    rw [if_pos (by omega)]
  | true =>
    simp only [BitVec.toNat_not, hwiden, Nat.pow_succ', if_true]
    rw [if_neg (by omega)]
    omega

end signFolded

namespace Floating

variable {ω : Type} [Format ω]

/-- The word by which the total order of floating-point values is defined, as a number with sign. -/
def totalWord (x : Floating ω) : Int := (signFolded x.word).toInt

theorem key_eq_totalWord (x : Floating ω) : x.key = x.totalWord := by
  rw [totalWord, toInt_signFolded, key, negative, magnitude, BitVec.toNat_setWidth]
  rfl

theorem key_inj {x y : Floating ω} : x.key = y.key ↔ x = y := by
  rw [key_eq_totalWord, key_eq_totalWord, totalWord, totalWord, BitVec.toInt_inj, signFolded_inj,
    word, word, Format.word_inj, ← mk.injEq]

theorem order_eq_compare_totalWord (x y : Floating ω) :
    order x y = compare x.totalWord y.totalWord := by
  rw [← key_eq_totalWord, ← key_eq_totalWord]
  rfl

end Floating

namespace Shape

theorem transCmp (s : Shape) : Std.TransCmp (@order s.Val _) := by
  have hint : Std.TransCmp (compare : Int → Int → Ordering) := inferInstance
  have hdata : Std.TransCmp (lexicographic (compare : UInt8 → UInt8 → Ordering)) := inferInstance
  induction s with
  | int => exact hint
  | float => exact NaturalOrd.transCmp_on hint Floating.key
  | single => exact NaturalOrd.transCmp_on hint Floating.key
  | bool => exact inferInstanceAs (Std.TransCmp (compare : Bool → Bool → Ordering))
  | char => exact inferInstanceAs (Std.TransCmp (compare : Char → Char → Ordering))
  | unit => exact { eq_swap := rfl, isLE_trans := fun _ _ => rfl }
  | text => exact NaturalOrd.transCmp_on hdata fun s : String => s.toUTF8.data.toList
  | bytes => exact NaturalOrd.transCmp_on hdata Bytes.data
  | option s ih => exact NaturalOrd.transCmp_option ih
  | list s ih => exact inferInstanceAs (Std.TransCmp (lexicographic (@order s.Val _)))
  | pair s t ihs iht => exact NaturalOrd.transCmp_pair ihs iht
  | triple s t u ihs iht ihu =>
    exact NaturalOrd.transCmp_pair ihs (NaturalOrd.transCmp_pair iht ihu)

theorem order_eq_iff_same {s : Shape} {a b : s.Val} : order a b = .eq ↔ s.Same a b := by
  have hdata : ∀ l m : List UInt8, order l m = .eq ↔ l = m := by
    intro l m
    rw [← List.forall₂_eq_eq_eq]
    exact NaturalOrd.lexicographic_eq_eq_iff (fun _ _ => Std.LawfulEqOrd.compare_eq_iff_eq) l m
  induction s with
  | int => exact Std.LawfulEqOrd.compare_eq_iff_eq
  | float => exact Std.LawfulEqOrd.compare_eq_iff_eq.trans Floating.key_inj
  | single => exact Std.LawfulEqOrd.compare_eq_iff_eq.trans Floating.key_inj
  | bool => exact Std.LawfulEqOrd.compare_eq_iff_eq
  | char => exact Std.LawfulEqOrd.compare_eq_iff_eq
  | unit => exact ⟨fun _ => rfl, fun _ => rfl⟩
  | text =>
    refine (hdata _ _).trans ?_
    rw [Array.toList_inj, ← ByteArray.ext_iff]
    exact String.toByteArray_inj
  | bytes => exact hdata _ _
  | option s ih =>
    cases a with
    | none =>
      cases b with
      | none => exact ⟨fun _ => trivial, fun _ => rfl⟩
      | some b => exact ⟨nofun, nofun⟩
    | some a =>
      cases b with
      | none => exact ⟨nofun, nofun⟩
      | some b => exact ih
  | list s ih => exact NaturalOrd.lexicographic_eq_eq_iff (fun _ _ => ih) a b
  | pair s t ihs iht => exact Ordering.then_eq_eq.trans (and_congr ihs iht)
  | triple s t u ihs iht ihu =>
    exact Ordering.then_eq_eq.trans
      (and_congr ihs (Ordering.then_eq_eq.trans (and_congr iht ihu)))

/-- The natural order of the values of a shape is total. Floating-point values are ordered by their
total words. -/
theorem natural_order_is_total (s : Shape) (a b c : s.Val) :
    order b a = (order a b).swap ∧
    (order a b ≠ .gt → order b c ≠ .gt → order a c ≠ .gt) ∧
    (order a b = .eq ↔ s.Same a b) ∧
    (∀ x y : Binary64, order x y = compare x.totalWord y.totalWord) ∧
    ∀ x y : Binary32, order x y = compare x.totalWord y.totalWord := by
  have htotal := s.transCmp
  refine ⟨htotal.eq_swap, ?_, order_eq_iff_same, Floating.order_eq_compare_totalWord,
    Floating.order_eq_compare_totalWord⟩
  intro hab hbc
  apply Ordering.ne_gt_iff_isLE.mpr
  exact htotal.isLE_trans (Ordering.ne_gt_iff_isLE.mp hab) (Ordering.ne_gt_iff_isLE.mp hbc)

/-- Negative zero, then positive zero with a longer list, then the same with other contents. -/
theorem natural_order_is_total_zeros :
    let s : Shape := .pair (.option .float) (.list .bytes)
    let a : s.Val := (some ⟨0x8000000000000000⟩, [⟨[255], true, 7⟩])
    let b : s.Val := (some ⟨0⟩, [⟨[255], false, 7⟩, ⟨[], true, 7⟩])
    let c : s.Val := (some ⟨0⟩, [⟨[255], true, 8⟩, ⟨[0], true, 7⟩])
    order a b ≠ .gt ∧ order b c ≠ .gt ∧ order a c ≠ .gt := by
  intro s a b c
  have hab : order a b ≠ .gt := by decide
  have hbc : order b c ≠ .gt := by decide
  exact ⟨hab, hbc, (natural_order_is_total s a b c).2.1 hab hbc⟩

end Shape

end Tabular
