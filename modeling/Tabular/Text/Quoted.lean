/-! # Quoted text

A quoted text stands between two quotes. The quote is chosen by the contents, so that it has to
be escaped only if both kinds of quotes occur. Control characters are written as escapes.
-/
namespace Tabular.Text

structure QuoteChoice where
  quote : Char
  escaped : Bool
  deriving DecidableEq, Repr

/-- Single quotes, unless the contents hold a single quote and no double quote. -/
def chooseQuote (single double : Bool) : QuoteChoice :=
  if single && !double then ⟨'"', false⟩ else ⟨'\'', single⟩

def QuoteChoice.ofChars (cs : List Char) : QuoteChoice :=
  chooseQuote (cs.contains '\'') (cs.contains '"')

def hexEscape (code : Nat) : List Char :=
  ['\\', 'x', Nat.digitChar (code / 16 % 16), Nat.digitChar (code % 16)]

def escapeLetter? : Char → Option Char
  | '\\' => some '\\'
  | '\n' => some 'n'
  | '\r' => some 'r'
  | '\t' => some 't'
  | _ => none

/-- One character between quotes; those that are not `plain` are written by their code. -/
def escapeChar (plain : Char → Bool) (q : QuoteChoice) (c : Char) : List Char :=
  match escapeLetter? c with
  | some letter => ['\\', letter]
  | none =>
    if c == q.quote && q.escaped then ['\\', c]
    else if plain c then [c]
    else hexEscape c.toNat

def isPlain (c : Char) : Bool := 0x20 ≤ c.toNat && c.toNat != 0x7f

def isPrintable (c : Char) : Bool := 0x20 ≤ c.toNat && c.toNat ≤ 0x7e

def quoted (cs : List Char) : List Char :=
  let q := QuoteChoice.ofChars cs
  q.quote :: cs.flatMap (escapeChar isPlain q) ++ [q.quote]

end Tabular.Text
