import Tabular.Binary64
import Tabular.Text.Quoted

/-! # Literals

The literal of a value is the text by which it is shown inside a container: text in quotes,
numbers in their shortest form, compound values by the literals of their parts.
-/
namespace Tabular

class Literal (α : Type u) where
  chars : α → List Char

def literal {α : Type u} [Literal α] (a : α) : String := String.ofList (Literal.chars a)

def commaSeparated (texts : List (List Char)) : List Char := [',', ' '].intercalate texts

def Decimal.integer : Int → List Char
  | .ofNat n => digits n
  | .negSucc n => '-' :: digits (n + 1)

namespace Literal

variable {α : Type u} {β : Type v}

instance : Literal Int := ⟨Decimal.integer⟩

instance : Literal Bool := ⟨fun b => (if b then "True" else "False").toList⟩

instance : Literal Binary64 := ⟨Binary64.text⟩

/-- A value of the narrow format is shown as the same value of the wide one. -/
instance : Literal Binary32 := ⟨fun x => x.widen.text⟩

instance : Literal String := ⟨fun s => Text.quoted s.toList⟩

instance [Literal α] : Literal (Option α) where
  chars
    | some a => chars a
    | none => "None".toList

instance [Literal α] [Literal β] : Literal (α × β) :=
  ⟨fun p => '(' :: chars p.1 ++ [',', ' '] ++ chars p.2 ++ [')']⟩

instance [Literal α] : Literal (List α) :=
  ⟨fun l => '[' :: commaSeparated (l.map chars) ++ [']']⟩

end Literal

class Inspect (α : Type u) where
  chars : α → List Char

def inspect {α : Type u} [Inspect α] (a : α) : String := String.ofList (Inspect.chars a)

namespace Inspect

variable {α : Type u}

instance : Inspect Int := ⟨Decimal.integer⟩

instance : Inspect Bool := ⟨fun b => (if b then "true" else "false").toList⟩

instance [Inspect α] : Inspect (List α) :=
  ⟨fun l => '[' :: commaSeparated (l.map chars) ++ [']']⟩

end Inspect

end Tabular
