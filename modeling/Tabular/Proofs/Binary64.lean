import Tabular.Proofs.Decimal.Layout

/-! # The texts of floating-point numbers

A finite number is written as a decimal with the fewest digits to which the number is the nearest.
The layout goes by the leading digit of the decimal, and the decimal may be rounded up to a power of
ten that the number does not reach. At the two powers where the layout changes this never happens.
-/
namespace Tabular.Binary64

open Decimal

def size (x : Binary64) : ℚ := x.toBinary.value

def decimal (x : Binary64) : Decimal :=
  if x.isZero then ⟨0, 0⟩ else x.toBinary.shortest (tie x.toBinary)

variable {x : Binary64}

theorem isDouble_toBinary (hnan : x.isNaN = false) (hinf : x.isInfinite = false)
    (hzero : x.isZero = false) : x.toBinary.IsDouble := by
  have hinfinity : Floating.infinity UInt64 = 0x7ff0000000000000 := rfl
  simp only [isNaN, Floating.isNaN, Floating.isInfinite, Floating.isZero, hinfinity,
    decide_eq_false_iff_not, beq_eq_false_iff_ne] at *
  have hfield : x.exponentField = x.magnitude / 0x10000000000000 := rfl
  have hfraction : x.fraction = x.magnitude % 0x10000000000000 := rfl
  by_cases hsubnormal : x.exponentField = 0
  · rw [toBinary, if_pos hsubnormal]
    constructor <;> simp <;> omega
  · rw [toBinary, if_neg hsubnormal]
    constructor <;> simp <;> omega

/-- The leading digit of the decimal tells on which side of the two powers of ten the value is: the
values of the format next to them are not below them. -/
theorem leadingExponent_shortest_iff {v : Binary} (h : v.IsDouble) (tie : Tie) :
    -4 ≤ (v.shortest tie).leadingExponent ∧ (v.shortest tie).leadingExponent < 16 ↔
      (10 : ℚ) ^ (-4 : Int) ≤ v.value ∧ v.value < 10 ^ (16 : Int) := by
  have hpos : 0 < (v.shortest tie).coefficient :=
    (h.shortest_spec tie).1.rounds.coefficient_pos h.pos
  have hlow : (10 : ℚ) ^ (-4 : Int) ≤ (v.shortest tie).value ↔ (10 : ℚ) ^ (-4 : Int) ≤ v.value := by
    apply h.ten_zpow_le_shortest_iff
    apply h.upper_lt_of_value_lt (n := 7378697629483821) (e := -66) <;> norm_num
  have hhigh : (10 : ℚ) ^ (16 : Int) ≤ (v.shortest tie).value ↔
      (10 : ℚ) ^ (16 : Int) ≤ v.value := by
    apply h.ten_zpow_le_shortest_iff
    apply h.upper_lt_of_value_lt (n := 5 * 10 ^ 15) (e := 1) <;> norm_num
  rw [← not_le, ← not_le, ← ten_zpow_le_value_iff hpos, ← ten_zpow_le_value_iff hpos, hlow, hhigh]

theorem text_eq (hnan : x.isNaN = false) (hinf : x.isInfinite = false) :
    x.text = (if x.negative then ['-'] else []) ++ Layout.standard.render x.decimal := by
  have hzero : Layout.standard.render ⟨0, 0⟩ = ['0', '.', '0'] := by decide
  rw [text, decimal, hnan, hinf]
  cases x.isZero with
  | true => simp [hzero]
  | false => rfl

theorem positional_iff (hnan : x.isNaN = false) (hinf : x.isInfinite = false) :
    Positional (Layout.standard.render x.decimal) ↔
      x.isZero = true ∨ (10 : ℚ) ^ (-4 : Int) ≤ x.size ∧ x.size < 10 ^ (16 : Int) := by
  rw [positional_render_iff]
  cases hzero : x.isZero with
  | true =>
    have hlead : leadingExponent ⟨0, 0⟩ = 0 := by decide
    simp [decimal, hzero, hlead, Layout.standard]
  | false =>
    have hrange := leadingExponent_shortest_iff (isDouble_toBinary hnan hinf hzero) (tie x.toBinary)
    simpa [decimal, hzero, size, Layout.standard] using hrange

theorem decimal_shortest (hnan : x.isNaN = false) (hinf : x.isInfinite = false)
    (hzero : x.isZero = false) : x.toBinary.IsShortest x.decimal := by
  have hdecimal : x.decimal = x.toBinary.shortest (tie x.toBinary) := by
    rw [decimal, hzero]
    rfl
  rw [hdecimal]
  exact (isDouble_toBinary hnan hinf hzero).isShortest_shortest _

/-- Every text is a numeral. That of a finite value has its sign and names one of its shortest
decimals; it has digits on both sides of a point, or an exponent, as the size of the value
decides. -/
theorem text_names_shortest_decimal (x : Binary64) :
    (x.isNaN = true → x.text = "nan".toList) ∧
    (x.isInfinite = true → x.text = (if x.negative then "-inf" else "inf").toList) ∧
    (x.isNaN = false → x.isInfinite = false →
      (x.isZero = true → x.decimal.value = 0) ∧
      (x.isZero = false → x.toBinary.IsShortest x.decimal) ∧
      (∃ y, read? x.text = some (x.negative, y) ∧ y.value = x.decimal.value) ∧
      ∃ body, x.text = (if x.negative then ['-'] else []) ++ body ∧
        (Positional body ↔
          x.isZero = true ∨ (10 : ℚ) ^ (-4 : Int) ≤ x.size ∧ x.size < 10 ^ (16 : Int)) ∧
        (¬ Positional body → Scientific body)) ∧
    isNumber (literal x) = true := by
  refine ⟨?_, ?_, ?_, isNumber_float x⟩
  · intro hnan
    rw [text, hnan]
    rfl
  · intro hinf
    have hnan : x.isNaN = false := by
      simp only [isNaN, Floating.isNaN, Floating.isInfinite, decide_eq_false_iff_not,
        beq_iff_eq] at *
      omega
    rw [text, hnan, hinf]
    cases x.negative <;> rfl
  · intro hnan hinf
    have htext := text_eq hnan hinf
    refine ⟨?_, decimal_shortest hnan hinf, ?_, Layout.standard.render x.decimal, htext,
      positional_iff hnan hinf, scientific_render x.decimal⟩
    · intro hzero
      simp [decimal, hzero, value]
    · refine ⟨ofUnsigned (Layout.standard.render x.decimal), ?_, value_ofUnsigned_render _ _⟩
      rw [htext]
      exact (unsigned_render Layout.standard x.decimal).read? x.negative

theorem text_names_shortest_decimal_switch :
    text ⟨0xfff8000000000001⟩ = "nan".toList ∧
    text ⟨0xfff0000000000000⟩ = "-inf".toList ∧
    Positional (text ⟨0x3f1a36e2eb1c432d⟩) ∧
    ¬ Positional (text ⟨0x3f1a36e2eb1c432c⟩) := by
  have hfirst : toBinary ⟨0x3f1a36e2eb1c432d⟩ = ⟨7378697629483821, -66, false⟩ := by decide
  have hlast : toBinary ⟨0x3f1a36e2eb1c432c⟩ = ⟨7378697629483820, -66, false⟩ := by decide
  refine ⟨(text_names_shortest_decimal _).1 (by decide), ?_, ?_, ?_⟩
  · exact (text_names_shortest_decimal ⟨0xfff0000000000000⟩).2.1 (by decide)
  · obtain ⟨-, -, hfinite, -⟩ := text_names_shortest_decimal ⟨0x3f1a36e2eb1c432d⟩
    obtain ⟨-, -, -, body, htext, hiff, -⟩ := hfinite (by decide) (by decide)
    have hsign : (⟨0x3f1a36e2eb1c432d⟩ : Binary64).negative = false := by decide
    rw [htext, hsign]
    apply hiff.mpr
    rw [size, hfirst]
    norm_num [Binary.value]
  · obtain ⟨-, -, hfinite, -⟩ := text_names_shortest_decimal ⟨0x3f1a36e2eb1c432c⟩
    obtain ⟨-, -, -, body, htext, hiff, -⟩ := hfinite (by decide) (by decide)
    have hsign : (⟨0x3f1a36e2eb1c432c⟩ : Binary64).negative = false := by decide
    have hzero : (⟨0x3f1a36e2eb1c432c⟩ : Binary64).isZero = false := by decide
    rw [htext, hsign]
    apply mt hiff.mp
    rw [size, hlast, hzero]
    norm_num [Binary.value]

end Tabular.Binary64
