import Tabular.Failure

/-! # Positions and slices

A signed index counts from the end when it is negative. A slice is a request for positions by
start, stop and step; resolved against a length it becomes a `Walk`, the arithmetic progression
of positions that it touches.
-/
namespace Tabular

/-- The position named by a signed index: a negative one is offset by the length, once. -/
def wrapIndex? (i : Int) (len : Nat) : Option Nat :=
  let j := if i < 0 then i + len else i
  if 0 ≤ j ∧ j < len then some j.toNat else none

def clampIndex (i : Int) (len : Nat) : Nat :=
  let j := if i < 0 then i + len else i
  (max 0 (min j len)).toNat

/-- A request for positions. An absent bound means the end from which, or to which, the step
leads; an absent step means one. -/
structure Slice where
  start : Option Int := none
  stop : Option Int := none
  step : Option Int := none
  deriving DecidableEq, Repr

/-- A slice resolved against a length. With a negative step `start` and `stop` may be `-1`, the
place before the first position. -/
structure Walk where
  start : Int
  stop : Int
  step : Int
  count : Nat
  deriving DecidableEq, Repr

namespace Slice

/-- The least step that is kept as given: its negative still is a word of 64 bits with sign. -/
def leastStep : Int := -0x7fffffffffffffff

/-- A given bound, offset once when negative and then clamped to the places that a walk in the
direction of `step` can start from or stop at. -/
def bound (i : Int) (len : Nat) (step : Int) : Int :=
  let j := if i < 0 then i + len else i
  if step < 0 then max (-1) (min j (len - 1)) else max 0 (min j len)

def first (start : Option Int) (len : Nat) (step : Int) : Int :=
  match start with
  | some i => bound i len step
  | none => if step < 0 then len - 1 else 0

def last (stop : Option Int) (len : Nat) (step : Int) : Int :=
  match stop with
  | some i => bound i len step
  | none => if step < 0 then -1 else len

def steps (start stop step : Int) : Nat :=
  if step < 0 then
    if stop < start then ((start - stop - 1) / (-step) + 1).toNat else 0
  else
    if start < stop then ((stop - start - 1) / step + 1).toNat else 0

def resolve (s : Slice) (len : Nat) : Except Failure Walk :=
  let given := s.step.getD 1
  if given = 0 then .error .zeroSliceStep
  else
    let step := max given leastStep
    let start := first s.start len step
    let stop := last s.stop len step
    .ok ⟨start, stop, step, steps start stop step⟩

end Slice

namespace Walk

def contiguous (w : Walk) : Bool := w.step == 1

def position (w : Walk) (k : Nat) : Nat := (w.start + k * w.step).toNat

def positions (w : Walk) : List Nat := (List.range w.count).map w.position

@[simp] theorem length_positions (w : Walk) : w.positions.length = w.count := by
  simp [positions]

theorem mem_positions {w : Walk} {i : Nat} :
    i ∈ w.positions ↔ ∃ k < w.count, w.position k = i := by
  simp [positions]

def stride (w : Walk) : Nat := w.step.natAbs

def lowest (w : Walk) : Nat :=
  if w.count = 0 then 0
  else if 0 < w.step then w.start.toNat
  else (w.start + (w.count - 1) * w.step).toNat

def covers (w : Walk) (i : Nat) : Bool :=
  w.count != 0 && (w.lowest ≤ i && i ≤ w.lowest + (w.count - 1) * w.stride &&
    (i - w.lowest) % w.stride == 0)

def rangeStart (w : Walk) : Nat := w.start.toNat

/-- Where a contiguous walk ends; a stop before the start gives an empty range at the start. -/
def rangeEnd (w : Walk) : Nat := (max w.stop w.start).toNat

def select (w : Walk) (l : List α) : List α :=
  if w.contiguous then (l.take w.rangeEnd).drop w.rangeStart
  else
    let a := l.toArray
    w.positions.filterMap fun i => a[i]?

def discard (w : Walk) (l : List α) : List α :=
  if w.contiguous then l.take w.rangeStart ++ l.drop w.rangeEnd
  else if w.count = 0 then l
  else (l.zipIdx.filter fun e => !w.covers e.2).map Prod.fst

def overwrite (w : Walk) (l replacement : List α) : List α :=
  ((w.positions.zip replacement).foldl (fun a e => a.setIfInBounds e.1 e.2) l.toArray).toList

def splice (w : Walk) (l replacement : List α) : List α :=
  l.take w.rangeStart ++ replacement ++ l.drop w.rangeEnd

end Walk

end Tabular
