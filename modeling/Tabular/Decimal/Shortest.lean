/-! # Shortest decimals

The decimal with the fewest digits that reads back as a given binary value, and of those the
nearest to it. The search goes over the grids of multiples of a power of ten, the coarsest
first, in exact arithmetic on natural numbers.
-/
namespace Tabular

structure Decimal where
  coefficient : Nat
  exponent : Int
  deriving DecidableEq, Repr

namespace Decimal

/-- The positive number `significand · 2 ^ exponent` among the values of a binary format, whose
gap above is `2 ^ exponent`. -/
structure Binary where
  significand : Nat
  exponent : Int
  /-- Whether the gap below is only half of the gap above. -/
  narrowBelow : Bool
  deriving DecidableEq, Repr

inductive Tie where
  | toEven
  | up
  deriving DecidableEq, Repr

namespace Binary

/-- With `denominator`, the factor by which a significand is turned into multiples of
`10 ^ grid`. -/
def numerator (v : Binary) (grid : Int) : Nat :=
  Nat.pow 2 v.exponent.toNat * Nat.pow 10 (-grid).toNat

def denominator (v : Binary) (grid : Int) : Nat :=
  Nat.pow 2 (-v.exponent).toNat * Nat.pow 10 grid.toNat

def floor (v : Binary) (grid : Int) : Nat := v.significand * v.numerator grid / v.denominator grid

/-- Whether `c · 10 ^ grid` rounds to the value: it lies no farther than half a gap away, and
nearer than that when the significand is odd. -/
def readsBack (v : Binary) (grid : Int) (c : Nat) : Bool :=
  let point := 4 * c * v.denominator grid
  let low := (4 * v.significand - (if v.narrowBelow then 1 else 2)) * v.numerator grid
  let high := (4 * v.significand + 2) * v.numerator grid
  if v.significand % 2 = 0 then low ≤ point && point ≤ high else low < point && point < high

def nearer (v : Binary) (tie : Tie) (grid : Int) : Nat :=
  let c := v.floor grid
  let twice := 2 * v.significand * v.numerator grid
  let middle := (2 * c + 1) * v.denominator grid
  if twice < middle then c
  else if middle < twice then c + 1
  else
    match tie with
    | .up => c + 1
    | .toEven => if c % 2 = 0 then c else c + 1

def onGrid (v : Binary) (tie : Tie) (grid : Int) : Option Nat :=
  let c := v.floor grid
  match v.readsBack grid c, v.readsBack grid (c + 1) with
  | true, true => some (v.nearer tie grid)
  | true, false => some c
  | false, true => some (c + 1)
  | false, false => none

/-- No value of the format is as large as the unit of the coarsest grid. -/
def coarsest : Int := 310

def search (v : Binary) (tie : Tie) : Nat → Int → Decimal
  | 0, grid => ⟨v.floor grid, grid⟩
  | steps + 1, grid =>
    match v.onGrid tie grid with
    | some c => ⟨c, grid⟩
    | none => search v tie steps (grid - 1)

/-- The shortest decimal of a value. The least unit of a format with 64 bits is `2 ^ -1074`, so
every value lies on the grid of `10 ^ -1074`, and the search ends there at the latest. -/
def shortest (v : Binary) (tie : Tie) : Decimal := v.search tie (310 + 1074) coarsest

def reaches (v : Binary) (grid : Int) : Bool :=
  v.denominator grid ≤ v.significand * v.numerator grid

end Binary

end Decimal

end Tabular
