import Mathlib.Algebra.Order.Field.Power
import Mathlib.Tactic.FieldSimp
import Mathlib.Tactic.Linarith
import Mathlib.Tactic.NormNum
import Mathlib.Tactic.Positivity
import Mathlib.Tactic.Ring
import Tabular.Decimal.Shortest

/-! # Rounding to a binary value

The numbers that are rounded to a value of the format with 64 bits are an interval around it, which
ends half way to the values below and above. For a power of two the gap below is half of the gap
above, unless both are the least gap of the format.
-/
namespace Tabular.Decimal

namespace Binary

def value (v : Binary) : ℚ := v.significand * (2 : ℚ) ^ v.exponent

def gapBelow (v : Binary) : ℚ := if v.narrowBelow then 2 ^ v.exponent / 2 else 2 ^ v.exponent

def lower (v : Binary) : ℚ := v.value - v.gapBelow / 2

def upper (v : Binary) : ℚ := v.value + 2 ^ v.exponent / 2

/-- The number is rounded to the value; of two equally near values the one with the even significand
is taken. -/
def Rounds (v : Binary) (q : ℚ) : Prop :=
  if v.significand % 2 = 0 then v.lower ≤ q ∧ q ≤ v.upper else v.lower < q ∧ q < v.upper

variable {v : Binary} {q : ℚ}

theorem two_zpow_pos (e : Int) : (0 : ℚ) < 2 ^ e := by positivity

theorem gapBelow_of_narrow (h : v.narrowBelow = true) : v.gapBelow = 2 ^ v.exponent / 2 := if_pos h

theorem gapBelow_of_not_narrow (h : ¬ v.narrowBelow = true) : v.gapBelow = 2 ^ v.exponent :=
  if_neg h

theorem gapBelow_mem (v : Binary) : 0 < v.gapBelow ∧ v.gapBelow ≤ 2 ^ v.exponent := by
  have hpos := two_zpow_pos v.exponent
  by_cases h : v.narrowBelow = true
  · rw [gapBelow_of_narrow h]
    constructor <;> linarith
  · rw [gapBelow_of_not_narrow h]
    exact ⟨hpos, le_rfl⟩

theorem lower_lt_value (v : Binary) : v.lower < v.value :=
  sub_lt_self _ (half_pos v.gapBelow_mem.1)

theorem value_lt_upper (v : Binary) : v.value < v.upper :=
  lt_add_of_pos_right _ (half_pos (two_zpow_pos v.exponent))

theorem upper_eq (v : Binary) : v.upper = (v.significand + 1 / 2) * 2 ^ v.exponent := by
  rw [upper, value]
  ring

theorem rounds_iff_of_even (h : v.significand % 2 = 0) :
    v.Rounds q ↔ v.lower ≤ q ∧ q ≤ v.upper := by
  rw [Rounds, if_pos h]

theorem rounds_iff_of_odd (h : ¬ v.significand % 2 = 0) :
    v.Rounds q ↔ v.lower < q ∧ q < v.upper := by
  rw [Rounds, if_neg h]

theorem rounds_of_lt (hlow : v.lower < q) (hhigh : q < v.upper) : v.Rounds q := by
  by_cases h : v.significand % 2 = 0
  · exact (rounds_iff_of_even h).mpr ⟨hlow.le, hhigh.le⟩
  · exact (rounds_iff_of_odd h).mpr ⟨hlow, hhigh⟩

theorem rounds_value (v : Binary) : v.Rounds v.value :=
  rounds_of_lt v.lower_lt_value v.value_lt_upper

theorem Rounds.mem (h : v.Rounds q) : v.lower ≤ q ∧ q ≤ v.upper := by
  by_cases heven : v.significand % 2 = 0
  · exact (rounds_iff_of_even heven).mp h
  · obtain ⟨hlow, hhigh⟩ := (rounds_iff_of_odd heven).mp h
    exact ⟨hlow.le, hhigh.le⟩

theorem Rounds.between {p r : ℚ} (hp : v.Rounds p) (hr : v.Rounds r) (hpq : p ≤ q) (hqr : q ≤ r) :
    v.Rounds q := by
  by_cases h : v.significand % 2 = 0
  · rw [rounds_iff_of_even h] at hp hr ⊢
    exact ⟨hp.1.trans hpq, hqr.trans hr.2⟩
  · rw [rounds_iff_of_odd h] at hp hr ⊢
    exact ⟨hp.1.trans_le hpq, hqr.trans_lt hr.2⟩

theorem Rounds.pos (hv : 0 < v.significand) (h : v.Rounds q) : 0 < q := by
  have hpos := two_zpow_pos v.exponent
  have hgap := v.gapBelow_mem.2
  have hone : (1 : ℚ) ≤ v.significand := by exact_mod_cast hv
  have hvalue : 2 ^ v.exponent ≤ v.value := le_mul_of_one_le_left hpos.le hone
  have hlow := h.mem.1
  rw [lower] at hlow
  linarith

/-- The value is one of the format with 64 bits: its significand has 53 bits, and it has all of them
unless its exponent is the least. -/
structure IsDouble (v : Binary) : Prop where
  pos : 0 < v.significand
  lt : v.significand < 2 ^ 53
  least : -1074 ≤ v.exponent
  most : v.exponent ≤ 971
  normal : v.exponent ≠ -1074 → 2 ^ 52 ≤ v.significand
  narrow : v.narrowBelow = true ↔ v.significand = 2 ^ 52 ∧ v.exponent ≠ -1074

/-- A magnitude of the format, were its exponents not bounded above. -/
def Representable (r : ℚ) : Prop :=
  ∃ (m : Nat) (e : Int), m < 2 ^ 53 ∧ -1074 ≤ e ∧ r = m * 2 ^ e

/-- The number is nearer to the value than to every other magnitude of the format, or, when the
value has the even significand, as near. -/
def IsNearest (v : Binary) (q : ℚ) : Prop :=
  ∀ r, Representable r → r ≠ v.value →
    |q - v.value| < |q - r| ∨ |q - v.value| = |q - r| ∧ v.significand % 2 = 0

theorem exists_mul_two_zpow {e e' : Int} (h : e ≤ e') (m : Nat) :
    ∃ n : Nat, (m : ℚ) * 2 ^ e' = n * 2 ^ e := by
  obtain ⟨k, hk⟩ := Int.eq_ofNat_of_zero_le (show 0 ≤ e' - e by omega)
  refine ⟨m * 2 ^ k, ?_⟩
  rw [show e' = k + e by omega, zpow_add₀ (by norm_num), zpow_natCast]
  push_cast
  ring

theorem mul_two_zpow_le {m : Nat} {e e' : Int} (hm : m < 2 ^ 53) (h : e' < e) :
    (m : ℚ) * 2 ^ e' ≤ (2 ^ 53 - 1) * (2 ^ e / 2) := by
  have hm' : (m : ℚ) + 1 ≤ 2 ^ 53 := by exact_mod_cast hm
  have hexponent : (2 : ℚ) ^ (e' + 1) ≤ 2 ^ e := zpow_le_zpow_right₀ (by norm_num) h
  rw [zpow_add_one₀ (by norm_num)] at hexponent
  apply mul_le_mul (by linarith) (by linarith) (two_zpow_pos e').le
  norm_num

theorem IsDouble.significand_ge (h : v.IsDouble) {e : Int} (he : -1074 ≤ e) (hlt : e < v.exponent) :
    (2 : ℚ) ^ 52 ≤ v.significand := by
  exact_mod_cast h.normal (by omega)

theorem IsDouble.add_le_of_lt (h : v.IsDouble) {r : ℚ} (hr : Representable r) (hlt : v.value < r) :
    v.value + 2 ^ v.exponent ≤ r := by
  have hpos := two_zpow_pos v.exponent
  obtain ⟨m, e, hm, he, rfl⟩ := hr
  rw [value] at hlt ⊢
  rcases Int.lt_or_le e v.exponent with hexp | hexp
  · have hfull := h.significand_ge he hexp
    have hbelow := mul_two_zpow_le hm hexp
    nlinarith
  · obtain ⟨n, hn⟩ := exists_mul_two_zpow hexp m
    rw [hn] at hlt ⊢
    have hnat : v.significand < n := by exact_mod_cast lt_of_mul_lt_mul_right hlt hpos.le
    have hsucc : (v.significand : ℚ) + 1 ≤ n := by exact_mod_cast hnat
    nlinarith

theorem IsDouble.le_sub_of_lt (h : v.IsDouble) {r : ℚ} (hr : Representable r) (hlt : r < v.value) :
    r ≤ v.value - v.gapBelow := by
  have hpos := two_zpow_pos v.exponent
  obtain ⟨m, e, hm, he, rfl⟩ := hr
  rw [value] at hlt ⊢
  rcases Int.lt_or_le e v.exponent with hexp | hexp
  · have hbelow := mul_two_zpow_le hm hexp
    by_cases hnarrow : v.narrowBelow = true
    · rw [gapBelow_of_narrow hnarrow, (h.narrow.mp hnarrow).1]
      push_cast
      linarith
    · rw [gapBelow_of_not_narrow hnarrow]
      -- The significand is not the least one with all bits, so a unit below it is in the same
      -- binade.
      have hfull := h.normal (by omega)
      have hne : v.significand ≠ 2 ^ 52 := fun heq => hnarrow (h.narrow.mpr ⟨heq, by omega⟩)
      have hsucc : (2 : ℚ) ^ 52 + 1 ≤ v.significand := by
        exact_mod_cast Nat.lt_of_le_of_ne hfull hne.symm
      nlinarith
  · obtain ⟨n, hn⟩ := exists_mul_two_zpow hexp m
    rw [hn] at hlt ⊢
    have hnat : n < v.significand := by exact_mod_cast lt_of_mul_lt_mul_right hlt hpos.le
    have hsucc : (n : ℚ) + 1 ≤ v.significand := by exact_mod_cast hnat
    have hgap := v.gapBelow_mem.2
    nlinarith

theorem IsDouble.representable_above (h : v.IsDouble) :
    Representable (v.value + 2 ^ v.exponent) := by
  have hleast := h.least
  rcases Nat.lt_or_ge (v.significand + 1) (2 ^ 53) with hlt | hge
  · refine ⟨v.significand + 1, v.exponent, hlt, hleast, ?_⟩
    rw [value]
    push_cast
    ring
  · have hall : v.significand + 1 = 2 ^ 53 := Nat.le_antisymm h.lt hge
    have hall' : (v.significand : ℚ) = 2 ^ 53 - 1 := by
      rw [eq_sub_iff_add_eq]
      exact_mod_cast hall
    refine ⟨2 ^ 52, v.exponent + 1, by norm_num, by omega, ?_⟩
    rw [value, hall', zpow_add_one₀ (by norm_num)]
    push_cast
    ring

theorem IsDouble.representable_below (h : v.IsDouble) : Representable (v.value - v.gapBelow) := by
  have hleast := h.least
  by_cases hnarrow : v.narrowBelow = true
  · obtain ⟨hsignificand, hexponent⟩ := h.narrow.mp hnarrow
    refine ⟨2 ^ 53 - 1, v.exponent - 1, by norm_num, by omega, ?_⟩
    rw [gapBelow_of_narrow hnarrow, value, hsignificand, zpow_sub_one₀ (by norm_num)]
    push_cast
    ring
  · refine ⟨v.significand - 1, v.exponent, (Nat.sub_le _ _).trans_lt h.lt, hleast, ?_⟩
    rw [gapBelow_of_not_narrow hnarrow, value, Nat.cast_sub h.pos]
    push_cast
    ring

theorem abs_sub_lt_abs_sub_iff {a b : ℚ} (hab : a < b) (q : ℚ) :
    |q - a| < |q - b| ↔ 2 * q < a + b := by
  rw [← sq_lt_sq]
  constructor
  · intro h
    nlinarith
  · intro h
    nlinarith

theorem abs_sub_le_abs_sub_iff {a b : ℚ} (hab : a < b) (q : ℚ) :
    |q - a| ≤ |q - b| ↔ 2 * q ≤ a + b := by
  rw [← sq_le_sq]
  constructor
  · intro h
    nlinarith
  · intro h
    nlinarith

/-- The interval of a value holds what is nearest to it. -/
theorem IsDouble.rounds_iff (h : v.IsDouble) : v.Rounds q ↔ v.IsNearest q := by
  have hpos := two_zpow_pos v.exponent
  have hgap := v.gapBelow_mem.1
  have hlt : v.value < v.value + 2 ^ v.exponent := by linarith
  have hgt : v.value - v.gapBelow < v.value := by linarith
  by_cases heven : v.significand % 2 = 0
  · rw [rounds_iff_of_even heven, lower, upper]
    constructor
    · rintro ⟨hlow, hhigh⟩ r hr hne
      have hle : |q - v.value| ≤ |q - r| := by
        rcases lt_or_gt_of_ne hne with hbelow | habove
        · have hdistance := h.le_sub_of_lt hr hbelow
          rw [← not_lt, abs_sub_lt_abs_sub_iff hbelow]
          linarith
        · have hdistance := h.add_le_of_lt hr habove
          rw [abs_sub_le_abs_sub_iff habove]
          linarith
      exact hle.lt_or_eq.imp_right fun heq => ⟨heq, heven⟩
    · intro hnearest
      have habove := (hnearest _ h.representable_above hlt.ne').elim le_of_lt fun heq => heq.1.le
      have hbelow := (hnearest _ h.representable_below hgt.ne).elim le_of_lt fun heq => heq.1.le
      rw [abs_sub_le_abs_sub_iff hlt] at habove
      rw [← not_lt, abs_sub_lt_abs_sub_iff hgt] at hbelow
      constructor <;> linarith
  · rw [rounds_iff_of_odd heven, lower, upper]
    constructor
    · rintro ⟨hlow, hhigh⟩ r hr hne
      left
      rcases lt_or_gt_of_ne hne with hbelow | habove
      · have hdistance := h.le_sub_of_lt hr hbelow
        rw [← not_le, abs_sub_le_abs_sub_iff hbelow]
        linarith
      · have hdistance := h.add_le_of_lt hr habove
        rw [abs_sub_lt_abs_sub_iff habove]
        linarith
    · intro hnearest
      have habove := (hnearest _ h.representable_above hlt.ne').resolve_right fun heq => heven heq.2
      have hbelow := (hnearest _ h.representable_below hgt.ne).resolve_right fun heq => heven heq.2
      rw [abs_sub_lt_abs_sub_iff hlt] at habove
      rw [← not_le, abs_sub_le_abs_sub_iff hgt] at hbelow
      constructor <;> linarith

/-- A number whose nearest value of the format lies above it, or is the number itself, is beyond
what is rounded to the values below. -/
theorem IsDouble.upper_lt_of_value_lt (h : v.IsDouble) {n : Nat} {e : Int} (he : -1074 ≤ e)
    (hn : n ≤ 2 ^ 53) (hbinade : 2 ^ 52 * 2 ^ e ≤ q) (hle : q ≤ n * 2 ^ e)
    (hnear : (n - 1 / 2) * 2 ^ e < q) (hv : v.value < q) : v.upper < q := by
  have htwo := two_zpow_pos v.exponent
  have hs : (v.significand : ℚ) + 1 ≤ 2 ^ 53 := by exact_mod_cast h.lt
  rcases lt_trichotomy v.exponent e with hlt | heq | hgt
  · -- In a lower binade all values end below this one.
    have hexponent : (2 : ℚ) ^ (v.exponent + 1) ≤ 2 ^ e := zpow_le_zpow_right₀ (by norm_num) hlt
    rw [zpow_add_one₀ (by norm_num)] at hexponent
    rw [upper_eq]
    nlinarith
  · rw [value, heq] at hv
    have hlt : v.significand < n := by
      exact_mod_cast lt_of_mul_lt_mul_right (hv.trans_le hle) (two_zpow_pos e).le
    have hsucc : (v.significand : ℚ) + 1 ≤ n := by exact_mod_cast hlt
    have hhalf : (v.significand : ℚ) + 1 / 2 ≤ n - 1 / 2 := by linarith
    rw [upper_eq, heq]
    exact (mul_le_mul_of_nonneg_right hhalf (two_zpow_pos e).le).trans_lt hnear
  · -- In a higher binade no value is below the number.
    have hexponent : (2 : ℚ) ^ (e + 1) ≤ 2 ^ v.exponent := zpow_le_zpow_right₀ (by norm_num) hgt
    rw [zpow_add_one₀ (by norm_num)] at hexponent
    have hfull : (2 : ℚ) ^ 52 ≤ v.significand := by
      exact_mod_cast h.normal (by omega)
    have hn' : (n : ℚ) ≤ 2 ^ 53 := by exact_mod_cast hn
    rw [value] at hv
    have hpos := two_zpow_pos e
    nlinarith

end Binary

end Tabular.Decimal
