import Tabular.Decimal.Layout
import Tabular.Proofs.Decimal.Rounding

/-! # The search finds a shortest decimal

The search goes from coarse grids of decimals to fine ones and stops at the first that meets the
interval of the numbers that are rounded to the value, on the nearest multiple of its unit. No
decimal with fewer digits lies in the interval: between it and the one found there would be a power
of ten, which lies on a coarser grid.
-/
namespace Tabular.Decimal

def value (x : Decimal) : ℚ := x.coefficient * (10 : ℚ) ^ x.exponent

theorem ten_zpow_pos (e : Int) : (0 : ℚ) < 10 ^ e := by positivity

theorem lt_pow_length_digits (n : Nat) : n < 10 ^ (digits n).length :=
  (Nat.length_toDigits_le_iff (by decide) Nat.length_toDigits_pos).mp le_rfl

theorem pow_le_of_lt_length_digits {n k : Nat} (hk : 0 < k) (h : k < (digits n).length) :
    10 ^ k ≤ n := by
  by_contra hlt
  have hlength := (Nat.length_toDigits_le_iff (by decide) hk).mpr (not_le.mp hlt)
  exact absurd h (not_lt.mpr hlength)

theorem ten_zpow_le_value_iff {x : Decimal} (hx : 0 < x.coefficient) (t : Int) :
    (10 : ℚ) ^ t ≤ x.value ↔ t ≤ x.leadingExponent := by
  have hten := ten_zpow_pos x.exponent
  have hlength : 0 < (digits x.coefficient).length := Nat.length_toDigits_pos
  have hlow : (10 : ℚ) ^ x.leadingExponent ≤ x.value := by
    have hpow : 10 ^ ((digits x.coefficient).length - 1) ≤ x.coefficient := by
      rcases Nat.eq_or_lt_of_le hlength with hone | hmore
      · rw [← hone]
        exact hx
      · exact pow_le_of_lt_length_digits (by omega) (by omega)
    have hexponent : x.leadingExponent =
        ((digits x.coefficient).length - 1 : Nat) + x.exponent := by
      rw [leadingExponent]
      omega
    rw [hexponent, zpow_add₀ (by norm_num), zpow_natCast, value]
    apply mul_le_mul_of_nonneg_right _ hten.le
    exact_mod_cast hpow
  have hhigh : x.value < 10 ^ (x.leadingExponent + 1) := by
    have hexponent : x.leadingExponent + 1 =
        ((digits x.coefficient).length : Nat) + x.exponent := by
      rw [leadingExponent]
      omega
    rw [hexponent, zpow_add₀ (by norm_num), zpow_natCast, value]
    apply mul_lt_mul_of_pos_right _ hten
    exact_mod_cast lt_pow_length_digits x.coefficient
  constructor
  · intro h
    have hlt := (zpow_lt_zpow_iff_right₀ (by norm_num : (1 : ℚ) < 10)).mp (h.trans_lt hhigh)
    omega
  · intro h
    exact (zpow_le_zpow_right₀ (by norm_num) h).trans hlow

namespace Binary

variable {v : Binary} {grid : Int} {tie : Tie}

theorem Rounds.coefficient_pos (hv : 0 < v.significand) {c : Nat} {g : Int}
    (h : v.Rounds (c * 10 ^ g)) : 0 < c := by
  apply Nat.pos_of_ne_zero
  rintro rfl
  simpa using h.pos hv

theorem natCast_pow_toNat {b : Nat} (hb : 0 < b) (n : Int) :
    ((Nat.pow b n.toNat : Nat) : ℚ) = (b : ℚ) ^ n * (Nat.pow b (-n).toNat : Nat) := by
  have hne : (b : ℚ) ≠ 0 := by positivity
  rcases Int.le_total 0 n with hn | hn
  · obtain ⟨m, rfl⟩ := Int.eq_ofNat_of_zero_le hn
    simp
  · obtain ⟨m, hm⟩ := Int.eq_ofNat_of_zero_le (Int.neg_nonneg.mpr hn)
    obtain rfl : n = -(m : Int) := by omega
    simp [hne]

theorem denominator_pos (v : Binary) (grid : Int) : 0 < v.denominator grid :=
  Nat.mul_pos (Nat.pow_pos (by decide)) (Nat.pow_pos (by decide))

theorem two_zpow_eq_scaled (v : Binary) (grid : Int) :
    (2 : ℚ) ^ v.exponent = v.numerator grid / v.denominator grid * 10 ^ grid := by
  have hden : (v.denominator grid : ℚ) ≠ 0 := by exact_mod_cast (v.denominator_pos grid).ne'
  have htwo := natCast_pow_toNat (b := 2) (by decide) v.exponent
  have hten := natCast_pow_toNat (b := 10) (by decide) grid
  rw [div_mul_eq_mul_div, eq_div_iff hden]
  rw [numerator, denominator]
  push_cast at htwo hten ⊢
  rw [htwo, hten]
  ring

theorem scaled_le_iff (v : Binary) (grid : Int) (a b : Nat) :
    a * v.numerator grid ≤ b * v.denominator grid ↔ (a : ℚ) * 2 ^ v.exponent ≤ b * 10 ^ grid := by
  have hden : (0 : ℚ) < v.denominator grid := by exact_mod_cast v.denominator_pos grid
  rw [two_zpow_eq_scaled v grid, ← mul_assoc, mul_le_mul_iff_of_pos_right (ten_zpow_pos grid),
    ← mul_div_assoc, div_le_iff₀ hden]
  exact_mod_cast Iff.rfl

theorem le_scaled_iff (v : Binary) (grid : Int) (a b : Nat) :
    b * v.denominator grid ≤ a * v.numerator grid ↔ (b : ℚ) * 10 ^ grid ≤ a * 2 ^ v.exponent := by
  have hden : (0 : ℚ) < v.denominator grid := by exact_mod_cast v.denominator_pos grid
  rw [two_zpow_eq_scaled v grid, ← mul_assoc, mul_le_mul_iff_of_pos_right (ten_zpow_pos grid),
    ← mul_div_assoc, le_div_iff₀ hden]
  exact_mod_cast Iff.rfl

theorem scaled_lt_iff (v : Binary) (grid : Int) (a b : Nat) :
    a * v.numerator grid < b * v.denominator grid ↔ (a : ℚ) * 2 ^ v.exponent < b * 10 ^ grid := by
  rw [← not_le, ← not_le, le_scaled_iff]

theorem lt_scaled_iff (v : Binary) (grid : Int) (a b : Nat) :
    b * v.denominator grid < a * v.numerator grid ↔ (b : ℚ) * 10 ^ grid < a * 2 ^ v.exponent := by
  rw [← not_le, ← not_le, scaled_le_iff]

theorem floor_le (v : Binary) (grid : Int) : (v.floor grid : ℚ) * 10 ^ grid ≤ v.value :=
  (v.le_scaled_iff grid v.significand (v.floor grid)).mp (Nat.div_mul_le_self _ _)

theorem lt_floor_succ (v : Binary) (grid : Int) :
    v.value < (v.floor grid + 1 : Nat) * 10 ^ grid := by
  apply (v.scaled_lt_iff grid v.significand (v.floor grid + 1)).mp
  exact Nat.lt_mul_of_div_lt (Nat.lt_succ_self _) (v.denominator_pos grid)

theorem four_mul_lower (hv : 0 < v.significand) :
    ((4 * v.significand - (if v.narrowBelow then 1 else 2) : Nat) : ℚ) * 2 ^ v.exponent =
      4 * v.lower := by
  rw [lower, value]
  by_cases h : v.narrowBelow = true
  · rw [if_pos h, gapBelow_of_narrow h, Nat.cast_sub (by omega)]
    push_cast
    ring
  · rw [if_neg h, gapBelow_of_not_narrow h, Nat.cast_sub (by omega)]
    push_cast
    ring

theorem four_mul_upper (v : Binary) :
    ((4 * v.significand + 2 : Nat) : ℚ) * 2 ^ v.exponent = 4 * v.upper := by
  rw [upper_eq]
  push_cast
  ring

theorem readsBack_iff (hv : 0 < v.significand) (c : Nat) :
    v.readsBack grid c = true ↔ v.Rounds (c * 10 ^ grid) := by
  have hpoint : ((4 * c : Nat) : ℚ) * 10 ^ grid = 4 * (c * 10 ^ grid) := by
    push_cast
    ring
  have hfour : (0 : ℚ) < 4 := by norm_num
  by_cases h : v.significand % 2 = 0
  · rw [rounds_iff_of_even h, readsBack, if_pos h, Bool.and_eq_true, decide_eq_true_eq,
      decide_eq_true_eq, scaled_le_iff, le_scaled_iff, four_mul_lower hv, four_mul_upper, hpoint,
      mul_le_mul_iff_of_pos_left hfour, mul_le_mul_iff_of_pos_left hfour]
  · rw [rounds_iff_of_odd h, readsBack, if_neg h, Bool.and_eq_true, decide_eq_true_eq,
      decide_eq_true_eq, scaled_lt_iff, lt_scaled_iff, four_mul_lower hv, four_mul_upper, hpoint,
      mul_lt_mul_iff_of_pos_left hfour, mul_lt_mul_iff_of_pos_left hfour]

theorem mul_ten_zpow_le {b c : Nat} (h : b ≤ c) (grid : Int) :
    (b : ℚ) * 10 ^ grid ≤ c * 10 ^ grid := by
  apply mul_le_mul_of_nonneg_right _ (ten_zpow_pos grid).le
  exact_mod_cast h

/-- If a multiple of the unit is rounded to the value, then so is the one next to the value on the
same side, and that one is no farther from it. -/
theorem floor_of_le {c : Nat} (hc : c ≤ v.floor grid) :
    (v.Rounds (c * 10 ^ grid) → v.Rounds (v.floor grid * 10 ^ grid)) ∧
      |v.value - v.floor grid * 10 ^ grid| ≤ |v.value - c * 10 ^ grid| := by
  have hle := mul_ten_zpow_le hc grid
  have hfloor := v.floor_le grid
  constructor
  · intro hround
    exact hround.between v.rounds_value hle hfloor
  · rw [abs_of_nonneg (by linarith), abs_of_nonneg (by linarith)]
    linarith

theorem succ_of_lt {c : Nat} (hc : v.floor grid < c) :
    (v.Rounds (c * 10 ^ grid) → v.Rounds ((v.floor grid + 1 : Nat) * 10 ^ grid)) ∧
      |v.value - (v.floor grid + 1 : Nat) * 10 ^ grid| ≤ |v.value - c * 10 ^ grid| := by
  have hle := mul_ten_zpow_le (Nat.succ_le_of_lt hc) grid
  have hsucc := v.lt_floor_succ grid
  constructor
  · intro hround
    exact v.rounds_value.between hround hsucc.le hle
  · rw [abs_of_nonpos (by linarith), abs_of_nonpos (by linarith)]
    linarith

theorem nearer_spec (v : Binary) (tie : Tie) (grid : Int) :
    (v.nearer tie grid = v.floor grid ∧
      |v.value - v.floor grid * 10 ^ grid| ≤ |v.value - (v.floor grid + 1 : Nat) * 10 ^ grid|) ∨
    (v.nearer tie grid = v.floor grid + 1 ∧
      |v.value - (v.floor grid + 1 : Nat) * 10 ^ grid| ≤ |v.value - v.floor grid * 10 ^ grid|) := by
  have hten := ten_zpow_pos grid
  have horder : (v.floor grid : ℚ) * 10 ^ grid < (v.floor grid + 1 : Nat) * 10 ^ grid := by
    push_cast
    linarith
  have hmiddle : ((2 * v.floor grid + 1 : Nat) : ℚ) * 10 ^ grid =
      v.floor grid * 10 ^ grid + (v.floor grid + 1 : Nat) * 10 ^ grid := by
    push_cast
    ring
  have htwice : ((2 * v.significand : Nat) : ℚ) * 2 ^ v.exponent = 2 * v.value := by
    rw [value]
    push_cast
    ring
  have hleft := abs_sub_le_abs_sub_iff horder v.value
  have hright := not_congr (abs_sub_lt_abs_sub_iff horder v.value)
  rw [← hmiddle, ← htwice, ← scaled_le_iff] at hleft
  rw [← hmiddle, ← htwice, ← scaled_lt_iff, not_lt] at hright
  simp only [nearer]
  split
  case isTrue hless => exact .inl ⟨rfl, hleft.mpr hless.le⟩
  case isFalse hnotless =>
    split
    case isTrue hmore => exact .inr ⟨rfl, hright.mpr hnotless⟩
    case isFalse hnotmore =>
      have hup := hright.mpr hnotless
      have hdown := hleft.mpr (not_lt.mp hnotmore)
      cases tie with
      | up => exact .inr ⟨rfl, hup⟩
      | toEven =>
        dsimp only
        split
        · exact .inl ⟨rfl, hdown⟩
        · exact .inr ⟨rfl, hup⟩

/-- A multiple of `10 ^ grid` that is rounded to the value, and no other such multiple is nearer to
it. -/
structure Closest (v : Binary) (grid : Int) (c : Nat) : Prop where
  rounds : v.Rounds (c * 10 ^ grid)
  le : ∀ b : Nat, v.Rounds (b * 10 ^ grid) → |v.value - c * 10 ^ grid| ≤ |v.value - b * 10 ^ grid|

theorem closest_floor (hlow : v.Rounds (v.floor grid * 10 ^ grid))
    (hhigh : ¬ v.Rounds ((v.floor grid + 1 : Nat) * 10 ^ grid)) :
    v.Closest grid (v.floor grid) := by
  refine ⟨hlow, ?_⟩
  intro b hb
  rcases Nat.lt_or_ge (v.floor grid) b with hlt | hge
  · exact absurd ((succ_of_lt hlt).1 hb) hhigh
  · exact (floor_of_le hge).2

theorem closest_succ (hlow : ¬ v.Rounds (v.floor grid * 10 ^ grid))
    (hhigh : v.Rounds ((v.floor grid + 1 : Nat) * 10 ^ grid)) :
    v.Closest grid (v.floor grid + 1) := by
  refine ⟨hhigh, ?_⟩
  intro b hb
  rcases Nat.lt_or_ge (v.floor grid) b with hlt | hge
  · exact (succ_of_lt hlt).2
  · exact absurd ((floor_of_le hge).1 hb) hlow

theorem closest_nearer (hlow : v.Rounds (v.floor grid * 10 ^ grid))
    (hhigh : v.Rounds ((v.floor grid + 1 : Nat) * 10 ^ grid)) (tie : Tie) :
    v.Closest grid (v.nearer tie grid) := by
  rcases v.nearer_spec tie grid with ⟨hc, hle⟩ | ⟨hc, hle⟩
  · rw [hc]
    refine ⟨hlow, ?_⟩
    intro b _
    rcases Nat.lt_or_ge (v.floor grid) b with hlt | hge
    · exact hle.trans (succ_of_lt hlt).2
    · exact (floor_of_le hge).2
  · rw [hc]
    refine ⟨hhigh, ?_⟩
    intro b _
    rcases Nat.lt_or_ge (v.floor grid) b with hlt | hge
    · exact (succ_of_lt hlt).2
    · exact hle.trans (floor_of_le hge).2

theorem onGrid_cases (hv : 0 < v.significand) (tie : Tie) (grid : Int) :
    (∃ c, v.onGrid tie grid = some c ∧ v.Closest grid c) ∨
      v.onGrid tie grid = none ∧ ∀ c : Nat, ¬ v.Rounds (c * 10 ^ grid) := by
  have hback := fun c => (@readsBack_iff v grid hv c).mp
  have hnot := fun c => mt (@readsBack_iff v grid hv c).mpr
  cases hlow : v.readsBack grid (v.floor grid) <;> cases hhigh : v.readsBack grid (v.floor grid + 1)
  case false.false =>
    refine .inr ⟨by simp only [onGrid, hlow, hhigh], ?_⟩
    intro c hc
    rcases Nat.lt_or_ge (v.floor grid) c with hlt | hge
    · exact hnot _ (by simp [hhigh]) ((succ_of_lt hlt).1 hc)
    · exact hnot _ (by simp [hlow]) ((floor_of_le hge).1 hc)
  case false.true =>
    refine .inl ⟨v.floor grid + 1, by simp only [onGrid, hlow, hhigh], ?_⟩
    exact closest_succ (hnot _ (by simp [hlow])) (hback _ hhigh)
  case true.false =>
    refine .inl ⟨v.floor grid, by simp only [onGrid, hlow, hhigh], ?_⟩
    exact closest_floor (hback _ hlow) (hnot _ (by simp [hhigh]))
  case true.true =>
    refine .inl ⟨v.nearer tie grid, by simp only [onGrid, hlow, hhigh], ?_⟩
    exact closest_nearer (hback _ hlow) (hback _ hhigh) tie

/-- The search ends on the first grid with a multiple that is rounded to the value. -/
theorem search_spec (hv : 0 < v.significand) (steps : Nat)
    (hend : (v.floor (grid - steps) : ℚ) * 10 ^ (grid - steps) = v.value) :
    v.Closest (v.search tie steps grid).exponent (v.search tie steps grid).coefficient ∧
      ∀ g, (v.search tie steps grid).exponent < g → g ≤ grid →
        ∀ c : Nat, ¬ v.Rounds (c * 10 ^ g) := by
  induction steps generalizing grid with
  | zero =>
    rw [Int.natCast_zero, sub_zero] at hend
    simp only [search]
    refine ⟨⟨?_, ?_⟩, ?_⟩
    · rw [hend]
      exact v.rounds_value
    · intro b _
      rw [hend, sub_self, abs_zero]
      exact abs_nonneg _
    · intro g hlt hle
      omega
  | succ steps ih =>
    rcases onGrid_cases hv tie grid with ⟨c, hgrid, hclosest⟩ | ⟨hgrid, hnone⟩
    · simp only [search, hgrid]
      refine ⟨hclosest, ?_⟩
      intro g hlt hle
      omega
    · have hrest : grid - (steps + 1 : Nat) = grid - 1 - (steps : Int) := by omega
      rw [hrest] at hend
      obtain ⟨hclosest, hcoarse⟩ := ih hend
      simp only [search, hgrid]
      refine ⟨hclosest, ?_⟩
      intro g hlt hle
      rcases Int.lt_or_le (grid - 1) g with hg | hg
      · obtain rfl : g = grid := by omega
        exact hnone
      · exact hcoarse g hlt hg

theorem two_pow_lt_ten_pow : (2 : ℚ) ^ 53 * 2 ^ (971 : Int) < 10 ^ (310 : Int) := by
  have hstep : (2 : ℚ) ^ 93 < 10 ^ 28 := by norm_num
  calc (2 : ℚ) ^ 53 * 2 ^ (971 : Int) = 2 * (2 ^ 93) ^ 11 := by
        rw [show (971 : Int) = (971 : Nat) from rfl, zpow_natCast, ← pow_mul, ← pow_add,
          ← pow_succ']
    _ < 2 * (10 ^ 28) ^ 11 := by gcongr
    _ ≤ 10 ^ 2 * (10 ^ 28) ^ 11 := by
        gcongr
        norm_num
    _ = 10 ^ (310 : Int) := by
        rw [show (310 : Int) = (310 : Nat) from rfl, zpow_natCast, ← pow_mul, ← pow_add]

theorem IsDouble.upper_lt (h : v.IsDouble) : v.upper < 10 ^ (310 : Int) := by
  have hs : (v.significand : ℚ) + 1 ≤ 2 ^ 53 := by exact_mod_cast h.lt
  have he : (2 : ℚ) ^ v.exponent ≤ 2 ^ (971 : Int) := zpow_le_zpow_right₀ (by norm_num) h.most
  have hpos := two_zpow_pos v.exponent
  calc v.upper ≤ 2 ^ 53 * 2 ^ v.exponent := by
        rw [upper_eq]
        exact mul_le_mul_of_nonneg_right (by linarith) hpos.le
    _ ≤ 2 ^ 53 * 2 ^ (971 : Int) := by gcongr
    _ < 10 ^ (310 : Int) := two_pow_lt_ten_pow

theorem two_zpow_eq {e : Int} {m : Nat} (h : -(m : Int) ≤ e) :
    (2 : ℚ) ^ e = (2 ^ (e + m).toNat * 5 ^ m : Nat) * 10 ^ (-(m : Int)) := by
  obtain ⟨k, hk⟩ := Int.eq_ofNat_of_zero_le (show 0 ≤ e + m by omega)
  obtain rfl : e = k - m := by omega
  have hten : (10 : ℚ) ^ (-(m : Int)) = 2 ^ (-(m : Int)) * 5 ^ (-(m : Int)) := by
    rw [← mul_zpow]
    norm_num
  rw [hten, hk, Int.toNat_natCast, sub_eq_add_neg, zpow_add₀ (by norm_num)]
  push_cast
  rw [zpow_natCast, zpow_neg, zpow_neg, zpow_natCast, zpow_natCast]
  field_simp

theorem floor_mul_eq {n : Nat} (h : v.value = n * 10 ^ grid) :
    (v.floor grid : ℚ) * 10 ^ grid = v.value := by
  have hten := ten_zpow_pos grid
  have hlow := v.floor_le grid
  have hhigh := v.lt_floor_succ grid
  rw [h] at hlow hhigh ⊢
  have hle : v.floor grid ≤ n := by exact_mod_cast le_of_mul_le_mul_right hlow hten
  have hlt : n < v.floor grid + 1 := by exact_mod_cast lt_of_mul_lt_mul_right hhigh hten.le
  rw [show v.floor grid = n by omega]

theorem IsDouble.shortest_spec (h : v.IsDouble) (tie : Tie) :
    v.Closest (v.shortest tie).exponent (v.shortest tie).coefficient ∧
      ∀ g, (v.shortest tie).exponent < g → ∀ c : Nat, ¬ v.Rounds (c * 10 ^ g) := by
  have hvalue : v.value = (v.significand * (2 ^ (v.exponent + 1074).toNat * 5 ^ 1074) : Nat) *
      10 ^ (coarsest - (310 + 1074 : Nat)) := by
    rw [value, two_zpow_eq (m := 1074) h.least, Nat.cast_mul v.significand, mul_assoc]
    rfl
  obtain ⟨hclosest, hcoarse⟩ :=
    @search_spec v coarsest tie h.pos (310 + 1074) (floor_mul_eq hvalue)
  refine ⟨hclosest, ?_⟩
  intro g hg c hc
  rcases Int.lt_or_le coarsest g with hlt | hle
  · -- On the coarser grids zero lies below the interval, and all else above it.
    have hone : (1 : ℚ) ≤ c := by exact_mod_cast hc.coefficient_pos h.pos
    have hgrid : (10 : ℚ) ^ (310 : Int) ≤ 10 ^ g := zpow_le_zpow_right₀ (by norm_num) hlt.le
    have hbeyond : (10 : ℚ) ^ (310 : Int) ≤ c * 10 ^ g :=
      hgrid.trans (le_mul_of_one_le_left (ten_zpow_pos g).le hone)
    exact absurd (hbeyond.trans hc.mem.2) (not_le.mpr h.upper_lt)
  · exact hcoarse g hg hle c hc

/-- No decimal that is rounded to the value has fewer digits than the shortest. -/
theorem IsDouble.length_digits_shortest_le (h : v.IsDouble) (tie : Tie) {y : Decimal}
    (hy : v.Rounds y.value) :
    (digits (v.shortest tie).coefficient).length ≤ (digits y.coefficient).length := by
  obtain ⟨hclosest, hcoarse⟩ := h.shortest_spec tie
  generalize v.shortest tie = x at hclosest hcoarse ⊢
  have hround : v.Rounds x.value := hclosest.rounds
  by_contra hlong
  have hexponent : y.exponent ≤ x.exponent := by
    by_contra hlt
    exact hcoarse y.exponent (not_le.mp hlt) y.coefficient hy
  -- The power of ten with one digit more than `y` lies between the two decimals.
  obtain ⟨k, hk⟩ : ∃ k, (digits y.coefficient).length = k + 1 :=
    ⟨_, (Nat.succ_pred_eq_of_pos Nat.length_toDigits_pos).symm⟩
  have hy' : y.value ≤ (10 ^ (k + 1) : Nat) * 10 ^ x.exponent := by
    have hlt := lt_pow_length_digits y.coefficient
    rw [hk] at hlt
    calc y.value ≤ (10 ^ (k + 1) : Nat) * 10 ^ y.exponent := by
          apply mul_le_mul_of_nonneg_right _ (ten_zpow_pos _).le
          exact_mod_cast hlt.le
      _ ≤ (10 ^ (k + 1) : Nat) * 10 ^ x.exponent := by
          gcongr
          norm_num
  have hx' : ((10 ^ (k + 1) : Nat) : ℚ) * 10 ^ x.exponent ≤ x.value := by
    apply mul_le_mul_of_nonneg_right _ (ten_zpow_pos _).le
    have hle : 10 ^ (k + 1) ≤ x.coefficient := pow_le_of_lt_length_digits (by omega) (by omega)
    exact_mod_cast hle
  have hcoarser : ((10 ^ (k + 1) : Nat) : ℚ) * 10 ^ x.exponent =
      (10 ^ k : Nat) * 10 ^ (x.exponent + 1) := by
    rw [zpow_add_one₀ (by norm_num)]
    push_cast
    ring
  apply hcoarse (x.exponent + 1) (by omega) (10 ^ k)
  rw [← hcoarser]
  exact hy.between hround hy' hx'

/-- The decimal is one of those with the fewest digits to which the value is the nearest, and of the
multiples of its unit that are so, none is nearer to the value. -/
structure IsShortest (v : Binary) (x : Decimal) : Prop where
  nearest : v.IsNearest x.value
  fewest : ∀ y : Decimal, v.IsNearest y.value →
    (digits x.coefficient).length ≤ (digits y.coefficient).length
  closest : ∀ y : Decimal, y.exponent = x.exponent → v.IsNearest y.value →
    |v.value - x.value| ≤ |v.value - y.value|

theorem IsDouble.isShortest_shortest (h : v.IsDouble) (tie : Tie) :
    v.IsShortest (v.shortest tie) := by
  have hclosest := (h.shortest_spec tie).1
  constructor
  case nearest => exact h.rounds_iff.mp hclosest.rounds
  case fewest =>
    intro y hy
    exact h.length_digits_shortest_le tie (h.rounds_iff.mpr hy)
  case closest =>
    intro y hexponent hy
    have hvalue : y.value = y.coefficient * 10 ^ (v.shortest tie).exponent := by
      rw [← hexponent, Decimal.value]
    rw [hvalue] at hy ⊢
    exact hclosest.le y.coefficient (h.rounds_iff.mpr hy)

/-- The shortest decimal of a value is on the same side of a power of ten, unless the power may be
rounded down to the value. -/
theorem IsDouble.ten_zpow_le_shortest_iff (h : v.IsDouble) (tie : Tie) {t : Int}
    (ht : v.value < 10 ^ t → v.upper < 10 ^ t) :
    (10 : ℚ) ^ t ≤ (v.shortest tie).value ↔ (10 : ℚ) ^ t ≤ v.value := by
  obtain ⟨hclosest, hcoarse⟩ := h.shortest_spec tie
  generalize v.shortest tie = x at hclosest hcoarse ⊢
  have hround : v.Rounds x.value := hclosest.rounds
  constructor
  · intro hx
    by_contra hlt
    exact absurd (hx.trans hround.mem.2) (not_le.mpr (ht (not_le.mp hlt)))
  · intro hvalue
    by_contra hlt
    have hx := not_le.mp hlt
    -- The power is rounded to the value, so no coarser grid is left for the decimal.
    have hpower : v.Rounds ((1 : Nat) * 10 ^ t) := by
      rw [Nat.cast_one, one_mul]
      exact hround.between v.rounds_value hx.le hvalue
    have hexponent : t ≤ x.exponent := by
      by_contra hgrid
      exact hcoarse t (not_le.mp hgrid) 1 hpower
    have hone : (1 : ℚ) ≤ x.coefficient := by
      exact_mod_cast Rounds.coefficient_pos h.pos hround
    have hlarge : (10 : ℚ) ^ t ≤ x.value :=
      (zpow_le_zpow_right₀ (by norm_num) hexponent).trans
        (le_mul_of_one_le_left (ten_zpow_pos _).le hone)
    exact hlt hlarge

end Binary

end Tabular.Decimal
