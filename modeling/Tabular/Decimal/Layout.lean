import Tabular.Decimal.Shortest

/-! # Decimals as text

A decimal is written positionally, with digits on both sides of a point, or with one digit
before the point and an exponent. A `Layout` says which exponents are written in which way.
-/
namespace Tabular.Decimal

structure Layout where
  least : Int
  /-- The exponents from here on are no longer written positionally. -/
  below : Int
  exponentWidth : Nat

/-- Values from `10 ^ -4` to below `10 ^ 16` are positional; an exponent has a sign and two
digits at least. -/
def Layout.standard : Layout := ⟨-4, 16, 2⟩

def digits (n : Nat) : List Char := Nat.toDigits 10 n

def leadingExponent (x : Decimal) : Int := x.exponent + (digits x.coefficient).length - 1

/-- Digits with a point behind the place of `10 ^ 0`, where the first digit has the place
`10 ^ e`; zeros fill the places up to the point, and one place behind it is always written. -/
def positional (ds : List Char) (e : Int) : List Char :=
  if e < 0 then '0' :: '.' :: List.replicate (-e - 1).toNat '0' ++ ds
  else
    let places := e.toNat + 1
    if ds.length ≤ places then
      ds ++ List.replicate (places - ds.length) '0' ++ ['.', '0']
    else ds.take places ++ '.' :: ds.drop places

def exponentDigits (width n : Nat) : List Char :=
  List.replicate (width - (digits n).length) '0' ++ digits n

def scientific (width : Nat) (ds : List Char) (e : Int) : List Char :=
  let mantissa :=
    match ds with
    | [] => []
    | [d] => [d]
    | d :: rest => d :: '.' :: rest
  mantissa ++ 'e' :: (if e < 0 then '-' else '+') :: exponentDigits width e.natAbs

def Layout.render (l : Layout) (x : Decimal) : List Char :=
  let ds := digits x.coefficient
  let e := x.leadingExponent
  if l.least ≤ e ∧ e < l.below then positional ds e else scientific l.exponentWidth ds e

end Tabular.Decimal
