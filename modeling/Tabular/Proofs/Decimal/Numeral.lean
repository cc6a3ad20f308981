import Tabular.Writer.Row

/-! # The texts of numbers are numerals

The text by which a whole number or a floating-point number is shown names a number, whatever digits
were found for it. The layout of a decimal is all that counts: digits, with a point among them or an
exponent behind them.
-/
namespace Tabular

theorem Text.trim_eq_self {cs : List Char} (h : ∀ c ∈ cs, isBlank c = false) : trim cs = cs := by
  have hkeep : ∀ {l : List Char}, (∀ c ∈ l, isBlank c = false) → l.dropWhile isBlank = l := by
    intro l hl
    cases l with
    | nil => rfl
    | cons c l => exact List.dropWhile_cons_of_neg (by simp [hl c List.mem_cons_self])
  rw [trim, hkeep h, hkeep fun c hc => h c (List.mem_reverse.mp hc), List.reverse_reverse]

namespace Decimal

theorem isBlank_of_isDigit {c : Char} (h : c.isDigit = true) : Text.isBlank c = false := by
  obtain ⟨low, high⟩ := Char.isDigit_iff_toNat.mp h
  have h0 : '0'.toNat = 48 := rfl
  have h9 : '9'.toNat = 57 := rfl
  simp only [Text.isBlank, Text.blankRanges, List.any_cons, List.any_nil, Bool.or_false,
    Bool.or_eq_false_iff, Bool.and_eq_false_iff, decide_eq_false_iff_not]
  omega

def Digits (cs : List Char) : Prop := ∀ c ∈ cs, c.isDigit = true

theorem digits_digits (n : Nat) : Digits (digits n) := fun _ hc =>
  Nat.isDigit_of_mem_toDigits (by decide) (by decide) hc

theorem digits_replicate (n : Nat) : Digits (List.replicate n '0') := by
  intro c hc
  rw [List.eq_of_mem_replicate hc]
  decide

theorem Digits.append {first second : List Char} (h₁ : Digits first) (h₂ : Digits second) :
    Digits (first ++ second) := by
  intro c hc
  rcases List.mem_append.mp hc with hc | hc
  · exact h₁ c hc
  · exact h₂ c hc

theorem Digits.not_blank {cs : List Char} (h : Digits cs) : ∀ c ∈ cs, Text.isBlank c = false :=
  fun c hc => isBlank_of_isDigit (h c hc)

structure Exponent (cs : List Char) : Prop where
  form : isExponent cs = true
  solid : ∀ c ∈ cs, Text.isBlank c = false

theorem exponent_nil : Exponent [] := by
  constructor
  · rfl
  · intro c hc
    cases hc

theorem exponent_exponentDigits (width n : Nat) (sign : Char) (hsign : sign = '+' ∨ sign = '-') :
    Exponent ('e' :: sign :: exponentDigits width n) := by
  have hdigits : Digits (exponentDigits width n) := (digits_replicate _).append (digits_digits n)
  have hne : exponentDigits width n ≠ [] := by
    simp [exponentDigits, digits, Nat.toDigits_ne_nil]
  constructor
  · have hall : (exponentDigits width n).all Char.isDigit = true := List.all_eq_true.mpr hdigits
    simp [isExponent, dropSign, hsign, isDigits, hne, hall]
  · have he : Text.isBlank 'e' = false := by decide
    have hs : Text.isBlank sign = false := by
      rcases hsign with rfl | rfl <;> decide
    simp only [List.forall_mem_cons]
    exact ⟨he, hs, hdigits.not_blank⟩

theorem Exponent.dropWhile {cs : List Char} (h : Exponent cs) :
    cs.dropWhile Char.isDigit = cs ∧ cs.takeWhile Char.isDigit = [] ∧ cs.head? ≠ some '.' := by
  have hform := h.form
  cases cs with
  | nil => exact ⟨rfl, rfl, by simp⟩
  | cons c cs =>
    simp only [isExponent, Bool.and_eq_true, Bool.or_eq_true, beq_iff_eq] at hform
    rcases hform.1 with rfl | rfl
    · exact ⟨rfl, rfl, by simp⟩
    · exact ⟨rfl, rfl, by simp⟩

structure Unsigned (cs : List Char) : Prop where
  decimal : isUnsignedDecimal cs = true
  solid : ∀ c ∈ cs, Text.isBlank c = false
  sign : dropSign cs = cs

theorem dropSign_append {cs : List Char} (h : Digits cs) (hne : cs ≠ []) (rest : List Char) :
    dropSign (cs ++ rest) = cs ++ rest := by
  cases cs with
  | nil => exact absurd rfl hne
  | cons c cs =>
    have hc : ¬ (c = '+' ∨ c = '-') := by
      rintro (rfl | rfl) <;> exact absurd (h _ List.mem_cons_self) (by decide)
    simp [dropSign, hc]

theorem unsigned_point {whole fraction rest : List Char} (hw : Digits whole) (hne : whole ≠ [])
    (hf : Digits fraction) (hr : Exponent rest) :
    Unsigned (whole ++ '.' :: (fraction ++ rest)) := by
  obtain ⟨hdrop, -, -⟩ := hr.dropWhile
  constructor
  · have hpoint : ('.' :: (fraction ++ rest)).dropWhile Char.isDigit =
        '.' :: (fraction ++ rest) := rfl
    have hnone : ('.' :: (fraction ++ rest)).takeWhile Char.isDigit = [] := rfl
    simp only [isUnsignedDecimal, List.takeWhile_append_of_pos hw, List.dropWhile_append_of_pos hw,
      hpoint, hnone, List.dropWhile_append_of_pos hf, hdrop, hr.form]
    simp [hne]
  · simp only [List.forall_mem_append, List.forall_mem_cons]
    exact ⟨hw.not_blank, by decide, hf.not_blank, hr.solid⟩
  · exact dropSign_append hw hne _

theorem unsigned_whole {whole rest : List Char} (hw : Digits whole) (hne : whole ≠ [])
    (hr : Exponent rest) : Unsigned (whole ++ rest) := by
  obtain ⟨hdrop, htake, hpoint⟩ := hr.dropWhile
  constructor
  · simp only [isUnsignedDecimal, List.takeWhile_append_of_pos hw, List.dropWhile_append_of_pos hw,
      hdrop, htake]
    split
    · simp at hpoint
    · simp [hne, hr.form]
  · simp only [List.forall_mem_append]
    exact ⟨hw.not_blank, hr.solid⟩
  · exact dropSign_append hw hne _

theorem unsigned_positional {ds : List Char} (hd : Digits ds) (hne : ds ≠ []) (e : Int) :
    Unsigned (positional ds e) := by
  unfold positional
  split
  · have hwhole : Digits ['0'] := digits_replicate 1
    have hfraction := (digits_replicate (-e - 1).toNat).append hd
    simpa using unsigned_point hwhole (by simp) hfraction exponent_nil
  · dsimp only
    split
    · have hwhole := hd.append (digits_replicate (e.toNat + 1 - ds.length))
      exact unsigned_point hwhole (by simp [hne]) (digits_replicate 1) exponent_nil
    · have hwhole : Digits (ds.take (e.toNat + 1)) := fun c hc => hd c (List.mem_of_mem_take hc)
      have hfraction : Digits (ds.drop (e.toNat + 1)) := fun c hc => hd c (List.mem_of_mem_drop hc)
      simpa using unsigned_point hwhole (by simp [hne]) hfraction exponent_nil

theorem unsigned_scientific {ds : List Char} (hd : Digits ds) (hne : ds ≠ []) (width : Nat)
    (e : Int) : Unsigned (scientific width ds e) := by
  have hexponent := exponent_exponentDigits width e.natAbs (if e < 0 then '-' else '+')
    (by split <;> simp)
  cases ds with
  | nil => exact absurd rfl hne
  | cons c ds =>
    have hfirst : Digits [c] := fun b hb => hd b (by simp_all)
    have hothers : Digits ds := fun b hb => hd b (List.mem_cons_of_mem c hb)
    cases ds with
    | nil => exact unsigned_whole hfirst (by simp) hexponent
    | cons c' ds => exact unsigned_point hfirst (by simp) hothers hexponent

theorem unsigned_render (l : Layout) (x : Decimal) : Unsigned (l.render x) := by
  have hne : digits x.coefficient ≠ [] := Nat.toDigits_ne_nil
  unfold Layout.render
  dsimp only
  split
  · exact unsigned_positional (digits_digits _) hne _
  · exact unsigned_scientific (digits_digits _) hne _ _

theorem isNumber_of_dropSign {cs : List Char} (hsolid : ∀ c ∈ cs, Text.isBlank c = false)
    (h : isUnsignedDecimal (dropSign cs) = true) : isNumber (String.ofList cs) = true := by
  rw [isNumber, String.toList_ofList, Text.trim_eq_self hsolid, isNumeral, h, Bool.true_or]

theorem Unsigned.isNumber {cs : List Char} (h : Unsigned cs) :
    isNumber (String.ofList cs) = true := by
  apply isNumber_of_dropSign h.solid
  rw [h.sign]
  exact h.decimal

theorem Unsigned.isNumber_negative {cs : List Char} (h : Unsigned cs) :
    Decimal.isNumber (String.ofList ('-' :: cs)) = true := by
  apply isNumber_of_dropSign
  · rw [List.forall_mem_cons]
    exact ⟨by decide, h.solid⟩
  · exact h.decimal

theorem isNumber_integer (n : Int) : isNumber (literal n) = true := by
  have hdigits : ∀ n, Unsigned (digits n) := by
    intro n
    simpa using unsigned_whole (digits_digits n) Nat.toDigits_ne_nil exponent_nil
  cases n with
  | ofNat n => exact (hdigits n).isNumber
  | negSucc n => exact (hdigits (n + 1)).isNumber_negative

theorem isNumber_float (x : Binary64) : isNumber (literal x) = true := by
  change isNumber (String.ofList x.text) = true
  unfold Binary64.text
  dsimp only
  split
  · decide
  · split
    · cases x.negative <;> decide
    · split
      · cases x.negative <;> decide
      · have hrender := unsigned_render .standard (x.toBinary.shortest (Binary64.tie x.toBinary))
        cases x.negative with
        | true => exact hrender.isNumber_negative
        | false => exact hrender.isNumber

end Decimal

namespace Cell

theorem isNumber_bool (b : Bool) : Decimal.isNumber (Cell.bool b).render = false := by
  cases b <;> decide

/-- Of the cells that count as numbers, only the truth values have a text that names none. -/
theorem isNumber_render {cell : Cell} (h : cell.isNumeric = true) (hb : ∀ b, cell ≠ .bool b) :
    Decimal.isNumber cell.render = true := by
  cases cell with
  | text s => exact h
  | int n => exact Decimal.isNumber_integer n
  | float x => exact Decimal.isNumber_float x
  | bool b => exact absurd rfl (hb b)
  | bytes b => cases h
  | absent => cases h

end Cell

end Tabular
