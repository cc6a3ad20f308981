import Mathlib.Data.List.Forall2
import Tabular.Proofs.Bytes.Memo
import Tabular.Shape

/-! # Values that are the same

Two values of a shape are the same if their parts are: byte strings by their contents,
floating-point values by their bits, lists element by element. Where no floating-point value occurs
this is the equality of values, provided that no byte string remembers a wrong hash.
-/
namespace Tabular.Shape

/-- The values have the same parts, whatever their byte strings remember. -/
def Same : (s : Shape) → s.Val → s.Val → Prop
  | int, a, b => a = b
  | float, a, b => a = b
  | single, a, b => a = b
  | bool, a, b => a = b
  | char, a, b => a = b
  | unit, a, b => a = b
  | text, a, b => a = b
  | bytes, a, b => a.data = b.data
  | option s, a, b =>
    match a, b with
    | some a, some b => s.Same a b
    | none, none => True
    | _, _ => False
  | list s, a, b => List.Forall₂ s.Same a b
  | pair s t, a, b => s.Same a.1 b.1 ∧ t.Same a.2 b.2
  | triple s t u, a, b => s.Same a.1 b.1 ∧ t.Same a.2.1 b.2.1 ∧ u.Same a.2.2 b.2.2

def Coherent (mix : List UInt8 → UInt64) : (s : Shape) → s.Val → Prop
  | bytes, b => b.Coherent mix
  | option s, a => ∀ x ∈ a, s.Coherent mix x
  | list s, l => ∀ x ∈ l, s.Coherent mix x
  | pair s t, p => s.Coherent mix p.1 ∧ t.Coherent mix p.2
  | triple s t u, p => s.Coherent mix p.1 ∧ t.Coherent mix p.2.1 ∧ u.Coherent mix p.2.2
  | _, _ => True

def isExact : Shape → Bool
  | float => false
  | single => false
  | option s => s.isExact
  | list s => s.isExact
  | pair s t => s.isExact && t.isExact
  | triple s t u => s.isExact && t.isExact && u.isExact
  | _ => true

variable {mix : List UInt8 → UInt64}

theorem beq_list_iff {s : Shape} {l m : s.list.Val}
    (h : ∀ a ∈ l, ∀ b ∈ m, (a == b) = true ↔ s.Same a b) :
    (l == m) = true ↔ s.list.Same l m := by
  induction l generalizing m with
  | nil =>
    cases m with
    | nil => exact ⟨fun _ => .nil, fun _ => rfl⟩
    | cons b m => exact ⟨nofun, nofun⟩
  | cons a l ih =>
    cases m with
    | nil => exact ⟨nofun, nofun⟩
    | cons b m =>
      have hhead := h a List.mem_cons_self b List.mem_cons_self
      have htail := @ih m fun x hx y hy => h x (.tail a hx) y (.tail b hy)
      show (a == b && l == m) = true ↔ List.Forall₂ s.Same (a :: l) (b :: m)
      rw [Bool.and_eq_true, List.forall₂_cons, hhead]
      exact and_congr_right' htail

/-- On exact values that remember no wrong hash, equality is sameness. -/
theorem beq_iff_same {s : Shape} (h : s.isExact = true) {a b : s.Val} (ha : s.Coherent mix a)
    (hb : s.Coherent mix b) : (a == b) = true ↔ s.Same a b := by
  induction s with
  | float => cases h
  | single => cases h
  | int => exact beq_iff_eq
  | bool => exact beq_iff_eq
  | char => exact beq_iff_eq
  | unit => exact beq_iff_eq
  | text => exact beq_iff_eq
  | bytes => exact Bytes.Coherent.beq_iff ha hb
  | option s ih =>
    cases a with
    | none =>
      cases b with
      | none => exact ⟨fun _ => trivial, fun _ => rfl⟩
      | some b => exact ⟨nofun, nofun⟩
    | some a =>
      cases b with
      | none => exact ⟨nofun, nofun⟩
      | some b => exact ih h (ha a rfl) (hb b rfl)
  | list s ih => exact beq_list_iff fun x hx y hy => ih h (ha x hx) (hb y hy)
  | pair s t ihs iht =>
    obtain ⟨hs, ht⟩ := (Bool.and_eq_true _ _).mp h
    show (a.1 == b.1 && a.2 == b.2) = true ↔ s.Same a.1 b.1 ∧ t.Same a.2 b.2
    rw [Bool.and_eq_true, ihs hs ha.1 hb.1, iht ht ha.2 hb.2]
  | triple s t u ihs iht ihu =>
    obtain ⟨hst, hu⟩ := (Bool.and_eq_true _ _).mp h
    obtain ⟨hs, ht⟩ := (Bool.and_eq_true _ _).mp hst
    show (a.1 == b.1 && (a.2.1 == b.2.1 && a.2.2 == b.2.2)) = true ↔
      s.Same a.1 b.1 ∧ t.Same a.2.1 b.2.1 ∧ u.Same a.2.2 b.2.2
    rw [Bool.and_eq_true, Bool.and_eq_true, ihs hs ha.1 hb.1, iht ht ha.2.1 hb.2.1,
      ihu hu ha.2.2 hb.2.2]

end Tabular.Shape
