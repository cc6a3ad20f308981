import Tabular.Bytes

/-! # Shapes of values

A shape names a type of values that are built from numbers, truth values, characters, text and
byte strings by options, lists, pairs and triples. Order and equality are defined for the values
of every shape, and so is a literal for the values of those that have one.
-/
namespace Tabular

inductive Shape where
  | int
  | float
  | single
  | bool
  | char
  | unit
  | text
  | bytes
  | option (inner : Shape)
  | list (inner : Shape)
  | pair (left right : Shape)
  | triple (left middle right : Shape)
  deriving DecidableEq, Repr

namespace Shape

@[reducible] def Val : Shape → Type
  | int => Int
  | float => Binary64
  | single => Binary32
  | bool => Bool
  | char => Char
  | unit => Unit
  | text => String
  | bytes => Bytes
  | option s => Option s.Val
  | list s => List s.Val
  | pair s t => s.Val × t.Val
  | triple s t u => s.Val × t.Val × u.Val

instance naturalOrd : (s : Shape) → NaturalOrd s.Val
  | int => inferInstanceAs (NaturalOrd Int)
  | float => inferInstanceAs (NaturalOrd Binary64)
  | single => inferInstanceAs (NaturalOrd Binary32)
  | bool => inferInstanceAs (NaturalOrd Bool)
  | char => inferInstanceAs (NaturalOrd Char)
  | unit => inferInstanceAs (NaturalOrd Unit)
  | text => inferInstanceAs (NaturalOrd String)
  | bytes => inferInstanceAs (NaturalOrd Bytes)
  | option s => let _ := naturalOrd s; inferInstanceAs (NaturalOrd (Option s.Val))
  | list s => let _ := naturalOrd s; inferInstanceAs (NaturalOrd (List s.Val))
  | pair s t =>
    let _ := naturalOrd s
    let _ := naturalOrd t
    inferInstanceAs (NaturalOrd (s.Val × t.Val))
  | triple s t u =>
    let _ := naturalOrd s
    let _ := naturalOrd t
    let _ := naturalOrd u
    inferInstanceAs (NaturalOrd (s.Val × t.Val × u.Val))

instance beq : (s : Shape) → BEq s.Val
  | int => inferInstanceAs (BEq Int)
  | float => inferInstanceAs (BEq Binary64)
  | single => inferInstanceAs (BEq Binary32)
  | bool => inferInstanceAs (BEq Bool)
  | char => inferInstanceAs (BEq Char)
  | unit => inferInstanceAs (BEq Unit)
  | text => inferInstanceAs (BEq String)
  | bytes => inferInstanceAs (BEq Bytes)
  | option s => let _ := beq s; inferInstanceAs (BEq (Option s.Val))
  | list s => let _ := beq s; inferInstanceAs (BEq (List s.Val))
  | pair s t => let _ := beq s; let _ := beq t; inferInstanceAs (BEq (s.Val × t.Val))
  | triple s t u =>
    let _ := beq s
    let _ := beq t
    let _ := beq u
    inferInstanceAs (BEq (s.Val × t.Val × u.Val))

/-- The literals of the values of a shape. Characters, the unit and triples have none. -/
def literal? : (s : Shape) → Option (Literal s.Val)
  | int => some (inferInstanceAs (Literal Int))
  | float => some (inferInstanceAs (Literal Binary64))
  | single => some (inferInstanceAs (Literal Binary32))
  | bool => some (inferInstanceAs (Literal Bool))
  | char => none
  | unit => none
  | text => some (inferInstanceAs (Literal String))
  | bytes => some (inferInstanceAs (Literal Bytes))
  | option s => (literal? s).map fun (_ : Literal s.Val) => inferInstanceAs (Literal (Option s.Val))
  | list s => (literal? s).map fun (_ : Literal s.Val) => inferInstanceAs (Literal (List s.Val))
  | pair s t =>
    (literal? s).bind fun (_ : Literal s.Val) => (literal? t).map fun (_ : Literal t.Val) =>
      inferInstanceAs (Literal (s.Val × t.Val))
  | triple _ _ _ => none

def inspect? : (s : Shape) → Option (Inspect s.Val)
  | int => some (inferInstanceAs (Inspect Int))
  | bool => some (inferInstanceAs (Inspect Bool))
  | bytes => some (inferInstanceAs (Inspect Bytes))
  | list s => (inspect? s).map fun (_ : Inspect s.Val) => inferInstanceAs (Inspect (List s.Val))
  | _ => none

end Shape

end Tabular
