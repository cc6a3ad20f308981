import Tabular.Literal
import Tabular.Order
import Tabular.Slice

/-! # Byte strings

A byte string is frozen or growable. Its content hash is computed on first use and remembered;
every change of the contents forgets it.
-/
namespace Tabular

/-- The word that stands for a hash not computed yet. -/
def Bytes.hashUnknown : UInt64 := 0xffffffffffffffff

structure Bytes where
  data : List UInt8
  frozen : Bool := true
  memo : UInt64 := Bytes.hashUnknown
  deriving Repr

namespace Bytes

def ofString (s : String) : Bytes := { data := s.toUTF8.data.toList }

def copyAs (b : Bytes) (frozen : Bool) : Bytes := { data := b.data, frozen := frozen }

def length (b : Bytes) : Nat := b.data.length

def get (b : Bytes) (i : Int) : Except Failure UInt8 :=
  match (wrapIndex? i b.data.length).bind (b.data[·]?) with
  | some byte => .ok byte
  | none => .error (.indexOutOfRange "bytes")

def slice (b : Bytes) (s : Slice) : Except Failure Bytes :=
  match s.resolve b.data.length with
  | .ok walk => .ok { data := walk.select b.data, frozen := b.frozen }
  | .error cause => .error cause

def search (needle : List UInt8) (offset : Nat) : List UInt8 → Option Nat
  | [] => if needle.isEmpty then some offset else none
  | byte :: rest =>
    if needle.isPrefixOf (byte :: rest) then some offset else search needle (offset + 1) rest

def find (b : Bytes) (needle : List UInt8) (start : Nat) : Option Nat :=
  if start ≤ b.data.length then search needle start (b.data.drop start) else none

def concat (b other : Bytes) : Bytes := { data := b.data ++ other.data, frozen := b.frozen }

/-- Adds the contents of another byte string. A frozen one gives way to a new value, a growable
one grows. -/
def concatInPlace (b other : Bytes) : Bytes :=
  if b.frozen then b.concat other else { b with data := b.data ++ other.data, memo := hashUnknown }

def extend (b : Bytes) (bytes : List UInt8) : Outcome Bytes Unit :=
  if b.frozen then .fail .frozenBytes b
  else .done () { b with data := b.data ++ bytes, memo := hashUnknown }

def push (b : Bytes) (byte : UInt8) : Outcome Bytes Unit := b.extend [byte]

/-- The bits of a computed hash. The top bit stays clear, so that none is `hashUnknown`. -/
def hashMask : UInt64 := 0x7fffffffffffffff

def hashOf (mix : List UInt8 → UInt64) (data : List UInt8) : UInt64 := mix data &&& hashMask

def hashWith (mix : List UInt8 → UInt64) (b : Bytes) : UInt64 × Bytes :=
  if b.memo ≠ hashUnknown then (b.memo, b)
  else
    let h := hashOf mix b.data
    (h, { b with memo := h })

def mixed (data : List UInt8) : UInt64 :=
  data.foldl (fun h byte => (h ^^^ byte.toUInt64) * 0x100000001b3) 0xcbf29ce484222325

def contentHash (data : List UInt8) : UInt64 := hashOf mixed data

def hash (b : Bytes) : UInt64 × Bytes := b.hashWith mixed

def memosDiffer (a b : Bytes) : Bool :=
  a.memo != hashUnknown && b.memo != hashUnknown && a.memo != b.memo

instance : BEq Bytes where
  beq a b := a.data.length == b.data.length && !memosDiffer a b && a.data == b.data

instance : Hashable Bytes := ⟨fun b => b.hash.1⟩

instance : NaturalOrd Bytes := ⟨fun a b => NaturalOrd.order a.data b.data⟩

def chars (b : Bytes) : List Char := b.data.map fun byte => Char.ofNat byte.toNat

def escapeWith (b : Bytes) (q : Text.QuoteChoice) : List Char :=
  b.chars.flatMap (Text.escapeChar Text.isPrintable q)

/-- The literal without its mark and its quotes. A single quote is escaped only if both kinds
of quotes occur. -/
def escape (b : Bytes) : List Char :=
  b.escapeWith ⟨'\'', b.chars.contains '\'' && b.chars.contains '"'⟩

instance : Literal Bytes where
  chars b :=
    let q := Text.QuoteChoice.ofChars b.chars
    'b' :: q.quote :: b.escapeWith q ++ [q.quote]

instance : Inspect Bytes := ⟨Literal.chars⟩

def display (b : Bytes) : String :=
  if b.frozen then literal b else "bytearray(" ++ literal b ++ ")"

end Bytes

end Tabular
