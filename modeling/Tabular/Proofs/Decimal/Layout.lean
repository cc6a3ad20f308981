import Tabular.Proofs.Decimal.Numeral
import Tabular.Proofs.Decimal.Shortest

/-! # Written decimals read back

A numeral names a decimal: the digits around its point are the coefficient, and the places behind
the point and the written exponent are the exponent. What a layout writes names the number it was
given. Where the layout is positional is read off the text, since only the other form has the mark
of an exponent.
-/
namespace Tabular.Decimal

def natural (cs : List Char) : Nat := Nat.ofDigitChars 10 cs 0

def exponentOf : List Char → Int
  | [] => 0
  | _ :: '-' :: cs => -(natural cs : Int)
  | _ :: cs => natural (dropSign cs)

def ofUnsigned (cs : List Char) : Decimal :=
  let whole := cs.takeWhile Char.isDigit
  match cs.dropWhile Char.isDigit with
  | '.' :: rest =>
    let fraction := rest.takeWhile Char.isDigit
    ⟨natural (whole ++ fraction), exponentOf (rest.dropWhile Char.isDigit) - fraction.length⟩
  | rest => ⟨natural whole, exponentOf rest⟩

def read? (cs : List Char) : Option (Bool × Decimal) :=
  if isUnsignedDecimal (dropSign cs) then some (cs.head? == some '-', ofUnsigned (dropSign cs))
  else none

def Positional (cs : List Char) : Prop :=
  ∃ whole fraction, isDigits whole ∧ isDigits fraction ∧ cs = whole ++ '.' :: fraction

/-- Digits, or digits on both sides of a point, and then the exponent: its mark, its sign in any
case, and its digits, with a zero before a single one. -/
def Scientific (cs : List Char) : Prop :=
  ∃ mantissa sign n, (isDigits mantissa ∨ Positional mantissa) ∧ (sign = '+' ∨ sign = '-') ∧
    cs = mantissa ++ 'e' :: sign :: (if (digits n).length = 1 then '0' :: digits n else digits n)

theorem isDigits_iff {cs : List Char} : isDigits cs = true ↔ cs ≠ [] ∧ Digits cs := by
  simp [isDigits, Digits]

@[simp] theorem natural_digits (n : Nat) : natural (digits n) = n := Nat.ofDigitChars_ten_toDigits

@[simp] theorem natural_zeros_append (n : Nat) (cs : List Char) :
    natural (List.replicate n '0' ++ cs) = natural cs := by
  rw [natural, Nat.ofDigitChars_append, Nat.ofDigitChars_replicate_zero, Nat.mul_zero, natural]

@[simp] theorem natural_append_zeros (cs : List Char) (n : Nat) :
    natural (cs ++ List.replicate n '0') = natural cs * 10 ^ n := by
  rw [natural, Nat.ofDigitChars_append, Nat.ofDigitChars_replicate_zero, Nat.mul_comm, natural]

theorem exponentOf_exponentDigits (width : Nat) (e : Int) :
    exponentOf ('e' :: (if e < 0 then '-' else '+') :: exponentDigits width e.natAbs) = e := by
  have hnatural : natural (exponentDigits width e.natAbs) = e.natAbs := by simp [exponentDigits]
  split
  · rw [exponentOf, hnatural]
    omega
  · have hsign : dropSign ('+' :: exponentDigits width e.natAbs) = exponentDigits width e.natAbs :=
      rfl
    rw [exponentOf, hsign, hnatural]
    · omega
    · intro cs hcs
      cases hcs

theorem ofUnsigned_point {whole fraction rest : List Char} (hw : Digits whole)
    (hf : Digits fraction)
    (hr : Exponent rest) :
    ofUnsigned (whole ++ '.' :: (fraction ++ rest)) =
      ⟨natural (whole ++ fraction), exponentOf rest - fraction.length⟩ := by
  obtain ⟨hdrop, htake, -⟩ := hr.dropWhile
  have hpoint : ('.' :: (fraction ++ rest)).dropWhile Char.isDigit =
      '.' :: (fraction ++ rest) := rfl
  have hnone : ('.' :: (fraction ++ rest)).takeWhile Char.isDigit = [] := rfl
  simp only [ofUnsigned, List.takeWhile_append_of_pos hw, List.dropWhile_append_of_pos hw, hpoint,
    hnone, List.takeWhile_append_of_pos hf, List.dropWhile_append_of_pos hf, hdrop, htake,
    List.append_nil]

theorem ofUnsigned_whole {whole rest : List Char} (hw : Digits whole) (hr : Exponent rest) :
    ofUnsigned (whole ++ rest) = ⟨natural whole, exponentOf rest⟩ := by
  obtain ⟨hdrop, htake, hpoint⟩ := hr.dropWhile
  simp only [ofUnsigned, List.takeWhile_append_of_pos hw, List.dropWhile_append_of_pos hw, hdrop,
    htake, List.append_nil]
  split
  · simp at hpoint
  · rfl

/-- The digits `ds`, the first of which has the place `10 ^ e`. -/
def ofLeading (ds : List Char) (e : Int) : Decimal := ⟨natural ds, e + 1 - ds.length⟩

theorem ofLeading_digits (x : Decimal) :
    ofLeading (digits x.coefficient) x.leadingExponent = x := by
  have hexponent : x.leadingExponent + 1 - (digits x.coefficient).length = x.exponent := by
    rw [leadingExponent]
    omega
  rw [ofLeading, natural_digits, hexponent]

theorem value_mul_pow (c n : Nat) (e : Int) : value ⟨c * 10 ^ n, e - n⟩ = value ⟨c, e⟩ := by
  have hten : (10 : ℚ) ^ n ≠ 0 := by positivity
  rw [value, value, zpow_sub₀ (by norm_num), zpow_natCast]
  push_cast
  field_simp

/-- The point of the positional layout stands behind the place of `10 ^ 0`. -/
theorem positional_parts {ds : List Char} (hd : Digits ds) (hne : ds ≠ []) (e : Int) :
    ∃ whole fraction, isDigits whole ∧ isDigits fraction ∧
      positional ds e = whole ++ '.' :: fraction ∧
      value ⟨natural (whole ++ fraction), -fraction.length⟩ = (ofLeading ds e).value := by
  rw [positional]
  split
  case isTrue hneg =>
    refine ⟨['0'], List.replicate (-e - 1).toNat '0' ++ ds, rfl, ?_, by simp, ?_⟩
    · exact isDigits_iff.mpr ⟨by simp [hne], (digits_replicate _).append hd⟩
    · have hzeros := natural_zeros_append 1 (List.replicate (-e - 1).toNat '0' ++ ds)
      rw [List.replicate_one, natural_zeros_append] at hzeros
      have hexponent : -((List.replicate (-e - 1).toNat '0' ++ ds).length : Int) =
          e + 1 - ds.length := by
        rw [List.length_append, List.length_replicate]
        omega
      rw [hzeros, hexponent, ofLeading]
  case isFalse hnonneg =>
    dsimp only
    split
    case isTrue hshort =>
      -- The zeros up to the point, and the one behind it, are further digits of the coefficient.
      generalize hk : e.toNat + 1 - ds.length = k
      refine ⟨ds ++ List.replicate k '0', ['0'], ?_, rfl, rfl, ?_⟩
      · exact isDigits_iff.mpr ⟨by simp [hne], hd.append (digits_replicate _)⟩
      · have hexponent : -(['0'].length : Int) = e + 1 - ds.length - (k + 1 : Nat) := by
          rw [List.length_singleton]
          omega
        rw [List.append_assoc, ← List.replicate_succ', natural_append_zeros, hexponent,
          value_mul_pow,
          ofLeading]
    case isFalse hlong =>
      generalize hk : e.toNat + 1 = k at hlong
      have htake : Digits (ds.take k) := fun c hc => hd c (List.mem_of_mem_take hc)
      have hdrop : Digits (ds.drop k) := fun c hc => hd c (List.mem_of_mem_drop hc)
      refine ⟨ds.take k, ds.drop k, ?_, ?_, rfl, ?_⟩
      · exact isDigits_iff.mpr ⟨by simp [hne, ← hk], htake⟩
      · exact isDigits_iff.mpr ⟨by simpa using hlong, hdrop⟩
      · have hexponent : -((ds.drop k).length : Int) = e + 1 - ds.length := by
          rw [List.length_drop]
          omega
        rw [List.take_append_drop, hexponent, ofLeading]

theorem value_ofUnsigned_positional {ds : List Char} (hd : Digits ds) (hne : ds ≠ []) (e : Int) :
    (ofUnsigned (positional ds e)).value = (ofLeading ds e).value := by
  obtain ⟨whole, fraction, hwhole, hfraction, htext, hvalue⟩ := positional_parts hd hne e
  have hread :=
    ofUnsigned_point (isDigits_iff.mp hwhole).2 (isDigits_iff.mp hfraction).2 exponent_nil
  rw [List.append_nil, exponentOf, Int.zero_sub] at hread
  rw [htext, hread, hvalue]

/-- In the other layout one digit stands before the point, so the exponent is that of the first. -/
theorem scientific_parts {ds : List Char} (hd : Digits ds) (hne : ds ≠ []) (width : Nat) (e : Int) :
    ∃ mantissa, (isDigits mantissa ∨ Positional mantissa) ∧
      scientific width ds e =
        mantissa ++ 'e' :: (if e < 0 then '-' else '+') :: exponentDigits width e.natAbs ∧
      ofUnsigned (scientific width ds e) = ofLeading ds e := by
  have hexponent := exponent_exponentDigits width e.natAbs (if e < 0 then '-' else '+')
    (by split <;> simp)
  have hread := exponentOf_exponentDigits width e
  match ds, hne with
  | [d], _ =>
    refine ⟨[d], .inl (isDigits_iff.mpr ⟨by simp, hd⟩), rfl, ?_⟩
    have hwhole := ofUnsigned_whole hd hexponent
    rw [hread] at hwhole
    rw [ofLeading, List.length_singleton, Int.natCast_one, Int.add_sub_cancel]
    exact hwhole
  | d :: d' :: rest, _ =>
    have hfirst : Digits [d] := fun c hc => hd c (by simp_all)
    have hothers : Digits (d' :: rest) := fun c hc => hd c (List.mem_cons_of_mem d hc)
    refine ⟨d :: '.' :: d' :: rest, .inr ⟨[d], d' :: rest, ?_, ?_, rfl⟩, rfl, ?_⟩
    · exact isDigits_iff.mpr ⟨by simp, hfirst⟩
    · exact isDigits_iff.mpr ⟨by simp, hothers⟩
    · have hpoint := ofUnsigned_point hfirst hothers hexponent
      have hplaces : e + 1 - (d :: d' :: rest).length = e - (d' :: rest).length := by
        rw [List.length_cons]
        omega
      rw [hread] at hpoint
      rw [ofLeading, hplaces]
      exact hpoint

theorem render_of_range {l : Layout} {x : Decimal}
    (h : l.least ≤ x.leadingExponent ∧ x.leadingExponent < l.below) :
    l.render x = positional (digits x.coefficient) x.leadingExponent := if_pos h

theorem render_of_not_range {l : Layout} {x : Decimal}
    (h : ¬ (l.least ≤ x.leadingExponent ∧ x.leadingExponent < l.below)) :
    l.render x = scientific l.exponentWidth (digits x.coefficient) x.leadingExponent := if_neg h

theorem digits_ne_nil (n : Nat) : digits n ≠ [] := Nat.toDigits_ne_nil

theorem value_ofUnsigned_render (l : Layout) (x : Decimal) :
    (ofUnsigned (l.render x)).value = x.value := by
  have hd := digits_digits x.coefficient
  have hne := digits_ne_nil x.coefficient
  by_cases h : l.least ≤ x.leadingExponent ∧ x.leadingExponent < l.below
  · rw [render_of_range h, value_ofUnsigned_positional hd hne, ofLeading_digits]
  · obtain ⟨-, -, -, hread⟩ := scientific_parts hd hne l.exponentWidth x.leadingExponent
    rw [render_of_not_range h, hread, ofLeading_digits]

theorem Digits.not_mem {cs : List Char} (h : Digits cs) : 'e' ∉ cs := fun hmem =>
  absurd (h 'e' hmem) (by decide)

theorem Positional.not_mem {cs : List Char} (h : Positional cs) : 'e' ∉ cs := by
  obtain ⟨whole, fraction, hwhole, hfraction, rfl⟩ := h
  have hw := (isDigits_iff.mp hwhole).2.not_mem
  have hf := (isDigits_iff.mp hfraction).2.not_mem
  simp [hw, hf]

theorem positional_render_iff (l : Layout) (x : Decimal) :
    Positional (l.render x) ↔ l.least ≤ x.leadingExponent ∧ x.leadingExponent < l.below := by
  have hd := digits_digits x.coefficient
  have hne := digits_ne_nil x.coefficient
  by_cases h : l.least ≤ x.leadingExponent ∧ x.leadingExponent < l.below
  · obtain ⟨whole, fraction, hwhole, hfraction, htext, -⟩ :=
      positional_parts hd hne x.leadingExponent
    rw [render_of_range h]
    exact iff_of_true ⟨whole, fraction, hwhole, hfraction, htext⟩ h
  · obtain ⟨mantissa, -, htext, -⟩ := scientific_parts hd hne l.exponentWidth x.leadingExponent
    rw [render_of_not_range h, htext]
    refine iff_of_false (fun hpositional => hpositional.not_mem ?_) h
    simp

theorem exponentDigits_two (n : Nat) :
    exponentDigits 2 n = if (digits n).length = 1 then '0' :: digits n else digits n := by
  have hlength : 0 < (digits n).length := Nat.length_toDigits_pos
  rw [exponentDigits]
  split
  case isTrue hone =>
    rw [hone]
    rfl
  case isFalse hmore =>
    rw [show 2 - (digits n).length = 0 by omega]
    rfl

theorem scientific_render (x : Decimal) (h : ¬ Positional (Layout.standard.render x)) :
    Scientific (Layout.standard.render x) := by
  obtain ⟨mantissa, hmantissa, htext, -⟩ :=
    scientific_parts (digits_digits x.coefficient) (digits_ne_nil _) 2 x.leadingExponent
  rw [exponentDigits_two] at htext
  rw [render_of_not_range (mt (positional_render_iff _ x).mpr h)]
  exact ⟨mantissa, _, _, hmantissa, by split <;> simp, htext⟩

theorem Unsigned.read? {cs : List Char} (h : Unsigned cs) (negative : Bool) :
    read? ((if negative then ['-'] else []) ++ cs) = some (negative, ofUnsigned cs) := by
  cases negative with
  | true =>
    have hsign : dropSign ('-' :: cs) = cs := rfl
    simp [Decimal.read?, hsign, h.decimal]
  | false =>
    have hhead : cs.head? ≠ some '-' := by
      intro hhead
      obtain ⟨rest, rfl⟩ := List.head?_eq_some_iff.mp hhead
      have hdrop : dropSign ('-' :: rest) = rest := rfl
      have hsign := h.sign
      rw [hdrop] at hsign
      exact List.cons_ne_self _ _ hsign.symm
    simp [Decimal.read?, h.sign, h.decimal, hhead]

end Tabular.Decimal
