import Tabular.Decimal.Layout

/-! # Binary floating-point values

Values of the two IEEE 754 formats with 64 and with 32 bits, held as their bit patterns, so that
signs of zero and payloads of NaN are kept. No machine arithmetic is involved.
-/
namespace Tabular

/-- How the words of a type hold floating-point values: the sign stands first, then the exponent,
then the fraction. -/
class Format (ω : Type) where
  exponentBits : Nat
  fractionBits : Nat
  word : ω → BitVec (exponentBits + fractionBits + 1)
  word_inj : ∀ {v w : ω}, word v = word w ↔ v = w

instance : Format UInt64 := ⟨11, 52, UInt64.toBitVec, UInt64.toBitVec_inj⟩

instance : Format UInt32 := ⟨8, 23, UInt32.toBitVec, UInt32.toBitVec_inj⟩

structure Floating (ω : Type) where
  bits : ω
  deriving DecidableEq, Repr

abbrev Binary64 := Floating UInt64

abbrev Binary32 := Floating UInt32

namespace Floating

open Format (exponentBits fractionBits)

variable {ω : Type} [Format ω]

def word (x : Floating ω) : BitVec (exponentBits ω + fractionBits ω + 1) := Format.word x.bits

def negative (x : Floating ω) : Bool := x.word.msb

def magnitude (x : Floating ω) : Nat := x.word.toNat % Nat.pow 2 (exponentBits ω + fractionBits ω)

def exponentField (x : Floating ω) : Nat := x.magnitude / Nat.pow 2 (fractionBits ω)

def fraction (x : Floating ω) : Nat := x.magnitude % Nat.pow 2 (fractionBits ω)

def isZero (x : Floating ω) : Bool := x.magnitude == 0

def infinity (ω : Type) [Format ω] : Nat :=
  (Nat.pow 2 (exponentBits ω) - 1) * Nat.pow 2 (fractionBits ω)

def isInfinite (x : Floating ω) : Bool := x.magnitude == infinity ω

def isNaN (x : Floating ω) : Bool := infinity ω < x.magnitude

/-- The place of a value in the total order: negative NaN first, then the numbers with `-0`
before `+0`, then positive NaN. -/
def key (x : Floating ω) : Int := if x.negative then -(x.magnitude : Int) - 1 else x.magnitude

/-- Equality of numbers: a NaN equals nothing, and the two zeros are equal. -/
instance : BEq (Floating ω) where
  beq x y := !x.isNaN && !y.isNaN && (x.word == y.word || (x.isZero && y.isZero))

end Floating

namespace Binary64

abbrev isNaN (x : Binary64) : Bool := Floating.isNaN x

def abs (x : Binary64) : Binary64 := ⟨UInt64.ofNat x.magnitude⟩

def neg (x : Binary64) : Binary64 := ⟨x.bits ^^^ 0x8000000000000000⟩

def toBinary (x : Binary64) : Decimal.Binary :=
  if x.exponentField = 0 then ⟨x.fraction, -1074, false⟩
  else ⟨0x10000000000000 + x.fraction, (x.exponentField : Int) - 1075,
    x.fraction == 0 && 1 < x.exponentField⟩

/-- Ties go to the even digit, except from `10 ^ -5` to below `10 ^ -4`, where they go up. -/
def tie (v : Decimal.Binary) : Decimal.Tie :=
  if v.reaches (-5) && !v.reaches (-4) then .up else .toEven

def text (x : Binary64) : List Char :=
  let sign := if x.negative then ['-'] else []
  if x.isNaN then ['n', 'a', 'n']
  else if x.isInfinite then sign ++ ['i', 'n', 'f']
  else if x.isZero then sign ++ ['0', '.', '0']
  else
    let v := x.toBinary
    sign ++ Decimal.Layout.standard.render (v.shortest (tie v))

end Binary64

namespace Binary32

/-- The bits below the sign of the same value in the wider format. A value below the normal
range of the narrow format is normal in the wide one. -/
def wideMagnitude (x : Binary32) : Nat :=
  if x.exponentField = 255 then 0x7ff0000000000000 + x.fraction * 0x20000000
  else if x.exponentField = 0 then
    if x.fraction = 0 then 0
    else
      let top := x.fraction.log2
      (top + 874) * 0x10000000000000 + (x.fraction - Nat.pow 2 top) * Nat.pow 2 (52 - top)
  else (x.exponentField + 896) * 0x10000000000000 + x.fraction * 0x20000000

def widen (x : Binary32) : Binary64 :=
  ⟨UInt64.ofNat ((if x.negative then 0x8000000000000000 else 0) + x.wideMagnitude)⟩

end Binary32

end Tabular
