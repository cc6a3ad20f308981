/-! # Numerals

The texts that name a number: an optional sign before a decimal with an optional exponent, or
before one of the words for infinity and for "not a number" in any case. Blanks around the number
are those with the Unicode property `White_Space`.
-/
namespace Tabular.Text

def blankRanges : List (Nat × Nat) :=
  [(0x0009, 0x000D), (0x0020, 0x0020), (0x0085, 0x0085), (0x00A0, 0x00A0), (0x1680, 0x1680),
    (0x2000, 0x200A), (0x2028, 0x2029), (0x202F, 0x202F), (0x205F, 0x205F), (0x3000, 0x3000)]

def isBlank (c : Char) : Bool :=
  blankRanges.any fun r => r.1 ≤ c.toNat && c.toNat ≤ r.2

def trim (cs : List Char) : List Char :=
  ((cs.dropWhile isBlank).reverse.dropWhile isBlank).reverse

end Tabular.Text

namespace Tabular.Decimal

def dropSign : List Char → List Char
  | [] => []
  | c :: cs => if c = '+' ∨ c = '-' then cs else c :: cs

def isDigits (cs : List Char) : Bool := !cs.isEmpty && cs.all Char.isDigit

def isExponent : List Char → Bool
  | [] => true
  | c :: cs => (c == 'e' || c == 'E') && isDigits (dropSign cs)

/-- Digits with at most one point among them, at least one digit, and then an exponent. -/
def isUnsignedDecimal (cs : List Char) : Bool :=
  let whole := cs.takeWhile Char.isDigit
  match cs.dropWhile Char.isDigit with
  | '.' :: rest =>
    let fraction := rest.takeWhile Char.isDigit
    (!whole.isEmpty || !fraction.isEmpty) && isExponent (rest.dropWhile Char.isDigit)
  | rest => !whole.isEmpty && isExponent rest

def specialWords : List String := ["inf", "infinity", "nan"]

def isSpecial (cs : List Char) : Bool :=
  specialWords.any fun word => word.toList == cs.map Char.toLower

def isNumeral (cs : List Char) : Bool :=
  isUnsignedDecimal (dropSign cs) || isSpecial (dropSign cs)

def isNumber (text : String) : Bool := isNumeral (Text.trim text.toList)

end Tabular.Decimal
