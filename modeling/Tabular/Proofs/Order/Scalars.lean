import Tabular.Proofs.Order

/-! # The order of text is the order of its scalars

Text is compared by the bytes of its encoding. A scalar is encoded by one to four bytes: the first
says how many there are and grows with their number, and the bytes of encodings of one length are
the digits of the scalar in base 64. So the encodings of two scalars part at a byte before either of
them ends, in the order of the scalars, and texts compare as the lists of their characters do.
-/
namespace Tabular.NaturalOrd

open String (utf8EncodeChar)

variable {α : Type u} {β : Type v}

theorem compare_add_right (a b k : Nat) : compare (a + k) (b + k) = compare a b := by
  simp [Nat.compare_eq_ite_lt]

/-- Comparing element by element is a walk along both lists up to the end of the shorter one; the
lengths decide if nothing on the way does. -/
theorem lexicographic_eq_foldr (cmp : α → α → Ordering) (l m : List α) :
    lexicographic cmp l m =
      (l.zip m).foldr (fun p rest => (cmp p.1 p.2).then rest) (compare l.length m.length) := by
  induction l generalizing m with
  | nil => cases m <;> simp [lexicographic, Nat.compare_eq_ite_lt]
  | cons a l ih =>
    cases m with
    | nil => simp [lexicographic, Nat.compare_eq_ite_lt]
    | cons b m =>
      rw [lexicographic, ih, List.zip_cons_cons, List.foldr_cons, List.length_cons,
        List.length_cons, compare_add_right]

theorem lexicographic_map (cmp : α → α → Ordering) (f : β → α) (l m : List β) :
    lexicographic cmp (l.map f) (m.map f) = lexicographic (fun a b => cmp (f a) (f b)) l m := by
  induction l generalizing m with
  | nil => cases m <;> rfl
  | cons a l ih =>
    cases m with
    | nil => rfl
    | cons b m => rw [List.map_cons, List.map_cons, lexicographic, lexicographic, ih]

theorem order_byte_eq :
    (order : UInt8 → UInt8 → Ordering) = fun a b => compare a.toNat b.toNat := by
  funext a b
  show compareOfLessAndEq a b = compareOfLessAndEq a.toNat b.toNat
  simp only [compareOfLessAndEq, UInt8.lt_iff_toNat_lt, ← UInt8.toNat_inj]

theorem order_char_eq :
    (order : Char → Char → Ordering) = fun c d => compare c.toNat d.toNat := by
  funext c d
  show compareOfLessAndEq c d = compareOfLessAndEq c.val.toNat d.val.toNat
  simp only [compareOfLessAndEq, Char.lt_def, UInt32.lt_iff_toNat_lt, Char.ext_iff,
    ← UInt32.toNat_inj]

theorem compare_eq_div_then_mod (a b : Nat) :
    compare a b = (compare (a / 64) (b / 64)).then (compare (a % 64) (b % 64)) := by
  rcases Nat.lt_trichotomy (a / 64) (b / 64) with hlt | heq | hgt
  · rw [Nat.compare_eq_lt.mpr hlt, Nat.compare_eq_lt.mpr (by omega)]
    rfl
  · have hlt : a < b ↔ a % 64 < b % 64 := by omega
    have hgt : b < a ↔ b % 64 < a % 64 := by omega
    rw [Nat.compare_eq_eq.mpr heq, Ordering.eq_then]
    simp only [Nat.compare_eq_ite_lt, hlt, hgt]
  · rw [Nat.compare_eq_gt.mpr hgt, Nat.compare_eq_gt.mpr (by omega)]
    rfl

inductive Encodes (v : Nat) : List Nat → Prop where
  | one : v < 0x80 → Encodes v [v]
  | two : 0x80 ≤ v → v < 0x800 → Encodes v [v / 64 + 192, v % 64 + 128]
  | three : 0x800 ≤ v → v < 0x10000 →
      Encodes v [v / 64 / 64 + 224, v / 64 % 64 + 128, v % 64 + 128]
  | four : 0x10000 ≤ v → v < 0x110000 →
      Encodes v [v / 64 / 64 / 64 + 240, v / 64 / 64 % 64 + 128, v / 64 % 64 + 128, v % 64 + 128]

theorem encodes_utf8EncodeChar (c : Char) :
    Encodes c.toNat ((utf8EncodeChar c).map UInt8.toNat) := by
  have hmax : c.val.toNat < 0x110000 := by
    rcases c.valid with h | h <;> omega
  change Encodes c.val.toNat _
  rw [utf8EncodeChar]
  generalize c.val.toNat = v at hmax
  have hbyte : ∀ n, n < 256 → (UInt8.ofNat n).toNat = n := fun n h => UInt8.toNat_ofNat_of_lt' h
  split
  · rw [List.map_singleton, hbyte v (by omega)]
    exact .one (by omega)
  · split
    · have hlead : v / 64 % 32 = v / 64 := by omega
      simp only [List.map_cons, List.map_nil]
      rw [hlead, hbyte _ (by omega), hbyte _ (by omega)]
      exact .two (by omega) (by omega)
    · split
      · have hlead : v / 4096 % 16 = v / 64 / 64 := by omega
        simp only [List.map_cons, List.map_nil]
        rw [hlead, hbyte _ (by omega), hbyte _ (by omega), hbyte _ (by omega)]
        exact .three (by omega) (by omega)
      · have hlead : v / 262144 % 8 = v / 64 / 64 / 64 := by omega
        have hnext : v / 4096 = v / 64 / 64 := by omega
        simp only [List.map_cons, List.map_nil]
        rw [hlead, hnext, hbyte _ (by omega), hbyte _ (by omega), hbyte _ (by omega),
          hbyte _ (by omega)]
        exact .four (by omega) (by omega)

namespace Encodes

variable {v w : Nat} {first second : List Nat}

theorem exists_lead (h : Encodes v first) : ∃ a rest, first = a :: rest := by
  cases h <;> exact ⟨_, _, rfl⟩

theorem lead_lt (hv : Encodes v first) (hw : Encodes w second)
    (h : first.length < second.length) :
    ∃ a rest b others, first = a :: rest ∧ second = b :: others ∧ a < b ∧ v < w := by
  cases hv <;> cases hw <;> simp at h
  all_goals exact ⟨_, _, _, _, rfl, rfl, by omega, by omega⟩

theorem lexicographic_of_length_lt (hv : Encodes v first) (hw : Encodes w second)
    (h : first.length < second.length) (l m : List Nat) :
    lexicographic compare (first ++ l) (second ++ m) = .lt ∧
      lexicographic compare (second ++ m) (first ++ l) = .gt ∧
      compare v w = .lt ∧ compare w v = .gt := by
  obtain ⟨a, rest, b, others, rfl, rfl, hlead, hless⟩ := hv.lead_lt hw h
  refine ⟨?_, ?_, Nat.compare_eq_lt.mpr hless, Nat.compare_eq_gt.mpr hless⟩
  · rw [List.cons_append, List.cons_append, lexicographic, Nat.compare_eq_lt.mpr hlead]
    rfl
  · rw [List.cons_append, List.cons_append, lexicographic, Nat.compare_eq_gt.mpr hlead]
    rfl

theorem lexicographic_of_length_eq (hv : Encodes v first) (hw : Encodes w second)
    (h : first.length = second.length) (l m : List Nat) :
    lexicographic compare (first ++ l) (second ++ m) =
      (compare v w).then (lexicographic compare l m) := by
  cases hv <;> cases hw <;> simp at h <;>
    simp only [List.cons_append, List.nil_append, lexicographic, compare_add_right]
  case two.two => rw [compare_eq_div_then_mod v w, Ordering.then_assoc]
  case three.three =>
    rw [compare_eq_div_then_mod v w, compare_eq_div_then_mod (v / 64) (w / 64)]
    simp only [Ordering.then_assoc]
  case four.four =>
    rw [compare_eq_div_then_mod v w, compare_eq_div_then_mod (v / 64) (w / 64),
      compare_eq_div_then_mod (v / 64 / 64) (w / 64 / 64)]
    simp only [Ordering.then_assoc]

/-- Encodings compare as the scalars do, and what follows counts only if these are equal. -/
theorem lexicographic_append (hv : Encodes v first) (hw : Encodes w second) (l m : List Nat) :
    lexicographic compare (first ++ l) (second ++ m) =
      (compare v w).then (lexicographic compare l m) := by
  rcases Nat.lt_trichotomy first.length second.length with hlt | heq | hgt
  · obtain ⟨hbytes, -, hscalars, -⟩ := hv.lexicographic_of_length_lt hw hlt l m
    rw [hbytes, hscalars]
    rfl
  · exact hv.lexicographic_of_length_eq hw heq l m
  · obtain ⟨-, hbytes, -, hscalars⟩ := hw.lexicographic_of_length_lt hv hgt m l
    rw [hbytes, hscalars]
    rfl

end Encodes

theorem lexicographic_flatMap (s t : List Char) :
    lexicographic compare ((s.flatMap utf8EncodeChar).map UInt8.toNat)
      ((t.flatMap utf8EncodeChar).map UInt8.toNat) =
      lexicographic (fun c d => compare c.toNat d.toNat) s t := by
  induction s generalizing t with
  | nil =>
    cases t with
    | nil => rfl
    | cons d t =>
      obtain ⟨a, rest, hlead⟩ := (encodes_utf8EncodeChar d).exists_lead
      rw [List.flatMap_cons, List.map_append, hlead]
      rfl
  | cons c s ih =>
    cases t with
    | nil =>
      obtain ⟨a, rest, hlead⟩ := (encodes_utf8EncodeChar c).exists_lead
      rw [List.flatMap_cons, List.map_append, hlead]
      rfl
    | cons d t =>
      have hscalars := (encodes_utf8EncodeChar c).lexicographic_append (encodes_utf8EncodeChar d)
      rw [List.flatMap_cons, List.flatMap_cons, List.map_append, List.map_append, hscalars, ih,
        lexicographic]

theorem toList_data_toUTF8 (s : String) :
    s.toUTF8.data.toList = s.toList.flatMap utf8EncodeChar := by
  have hencoded : s.toUTF8 = s.toList.utf8Encode := by
    rw [String.toUTF8_eq_toByteArray, ← String.toByteArray_ofList, String.ofList_toList]
  rw [hencoded, List.utf8Encode, List.toList_data_toByteArray]

/-- Texts, the bytes of texts and the lists of their characters compare in the same way, which is
scalar by scalar up to the end of the shorter text. -/
theorem text_order_is_scalar_order (s t : String) :
    order s t = order (Bytes.ofString s) (Bytes.ofString t) ∧
    order s t = order s.toList t.toList ∧
    order s.toList t.toList =
      (s.toList.zip t.toList).foldr (fun p rest => (compare p.1.toNat p.2.toNat).then rest)
        (compare s.toList.length t.toList.length) := by
  have hchars : order s.toList t.toList = lexicographic (fun c d => compare c.toNat d.toNat)
      s.toList t.toList := by
    rw [← order_char_eq]
    rfl
  refine ⟨rfl, ?_, ?_⟩
  · rw [hchars, ← lexicographic_flatMap, lexicographic_map, ← order_byte_eq, ← toList_data_toUTF8,
      ← toList_data_toUTF8]
    rfl
  · rw [hchars, lexicographic_eq_foldr]

end Tabular.NaturalOrd
