import Tabular.Dialect
import Tabular.OrderedMap

/-! # Named dialects

A registry holds dialects without faults under names, in the order in which the names came in.
-/
namespace Tabular

structure Registry where
  entries : OrderedMap String Dialect := {}
  deriving DecidableEq, Repr

namespace Registry

def names (r : Registry) : List String := r.entries.keys

def get (r : Registry) (name : String) : Except Failure Dialect :=
  match r.entries.get? name with
  | some dialect => .ok dialect
  | none => .error (.unknownDialect name)

def register (r : Registry) (name : String) (dialect : Dialect) : Outcome Registry Unit :=
  match dialect.validate with
  | .ok () => .done () ⟨r.entries.insert name dialect⟩
  | .error cause => .fail cause r

def unregister (r : Registry) (name : String) : Outcome Registry Unit :=
  match r.entries.get? name with
  | some _ => .done () ⟨r.entries.erase name⟩
  | none => .fail (.unknownDialect name) r

def standardDialects : List (String × Dialect) :=
  [("excel", .excel), ("excel-tab", .excelTab), ("unix", .unix)]

def registerAll (r : Registry) : List (String × Dialect) → Outcome Registry Unit
  | [] => .done () r
  | (name, dialect) :: rest =>
    let registered := r.register name dialect
    match registered.result with
    | .ok () => registered.after.registerAll rest
    | .error cause => .fail cause registered.after

def install (r : Registry) : Outcome Registry Unit := r.registerAll standardDialects

def standard : Registry := (install {}).after

end Registry

end Tabular
