import Tabular.Reader

/-! # Lines of encoded text

Bytes are cut at the byte of a line feed and decoded line by line. For the encoding of a text this
is the same as cutting the text itself after each line feed, since no other character has that byte
in its encoding.
-/
namespace Tabular.Lines

def splitText : List Char → List (List Char)
  | [] => []
  | c :: rest =>
    if c = '\n' then [c] :: splitText rest
    else
      match splitText rest with
      | [] => [[c]]
      | line :: lines => (c :: line) :: lines

def itemsOf (text : List Char) : List Item :=
  (splitText text).map fun line => .ok (String.ofList line)

@[simp] theorem splitText_nil : splitText [] = [] := rfl

@[simp] theorem splitText_lineFeed_cons (rest : List Char) :
    splitText ('\n' :: rest) = ['\n'] :: splitText rest := rfl

theorem splitText_cons_of_ne {c : Char} (hc : c ≠ '\n') {rest line : List Char}
    {lines : List (List Char)} (h : splitText rest = line :: lines) :
    splitText (c :: rest) = (c :: line) :: lines := by
  simp [splitText, hc, h]

theorem exists_splitText_cons (c : Char) (rest : List Char) :
    ∃ line lines, splitText (c :: rest) = (c :: line) :: lines := by
  by_cases hc : c = '\n'
  · subst c
    exact ⟨_, _, splitText_lineFeed_cons rest⟩
  · cases hrest : splitText rest with
    | nil => exact ⟨[], [], by simp [splitText, hc, hrest]⟩
    | cons line lines => exact ⟨line, lines, splitText_cons_of_ne hc hrest⟩

theorem exists_splitText_append (text : List Char) {rest line : List Char}
    {lines : List (List Char)} (h : splitText rest = line :: lines) :
    ∃ first others, splitText (text ++ rest) = first :: others := by
  cases hcs : text ++ rest with
  | nil => simp [(List.append_eq_nil_iff.mp hcs).2] at h
  | cons c cs =>
    obtain ⟨first, others, hfirst⟩ := exists_splitText_cons c cs
    exact ⟨c :: first, others, hfirst⟩

theorem splitText_append_lineFeed {text : List Char} (h : '\n' ∉ text) (rest : List Char) :
    splitText (text ++ '\n' :: rest) = (text ++ ['\n']) :: splitText rest := by
  induction text with
  | nil => simp
  | cons c text ih =>
    obtain ⟨hc, ht⟩ := List.ne_and_not_mem_of_not_mem_cons h
    exact splitText_cons_of_ne hc.symm (ih ht)

theorem splitText_of_not_mem {text : List Char} (h : '\n' ∉ text) :
    splitText text = if text = [] then [] else [text] := by
  induction text with
  | nil => rfl
  | cons c text ih =>
    obtain ⟨hc, ht⟩ := List.ne_and_not_mem_of_not_mem_cons h
    have := ih ht
    by_cases he : text = []
    · subst he
      simp [splitText, hc.symm]
    · rw [if_neg he] at this
      rw [splitText_cons_of_ne hc.symm this, if_neg (List.cons_ne_nil _ _)]

def textOf (lines : List String) : List Char := lines.flatMap String.toList

@[simp] theorem textOf_nil : textOf [] = [] := rfl

@[simp] theorem textOf_cons (line : String) (lines : List String) :
    textOf (line :: lines) = line.toList ++ textOf lines := rfl

/-- The bytes of a character beyond the first 128 all have their top bit set. -/
theorem mem_utf8EncodeChar_of_wide {c : Char} (hc : ¬ c.val.toNat ≤ 0x7f) {b : UInt8}
    (hb : b ∈ String.utf8EncodeChar c) : ∃ n, 128 ≤ n ∧ n < 256 ∧ b = UInt8.ofNat n := by
  simp only [String.utf8EncodeChar, if_neg hc] at hb
  split at hb
  · simp only [List.mem_cons, List.not_mem_nil, or_false] at hb
    rcases hb with rfl | rfl <;> exact ⟨_, by omega, by omega, rfl⟩
  · split at hb
    · simp only [List.mem_cons, List.not_mem_nil, or_false] at hb
      rcases hb with rfl | rfl | rfl <;> exact ⟨_, by omega, by omega, rfl⟩
    · simp only [List.mem_cons, List.not_mem_nil, or_false] at hb
      rcases hb with rfl | rfl | rfl | rfl <;> exact ⟨_, by omega, by omega, rfl⟩

theorem lineFeed_mem_utf8EncodeChar {c : Char} : lineFeed ∈ String.utf8EncodeChar c ↔ c = '\n' := by
  constructor
  · intro h
    by_cases hc : c.val.toNat ≤ 0x7f
    · simp only [String.utf8EncodeChar, if_pos hc] at h
      have hb := congrArg UInt8.toNat (List.mem_singleton.mp h)
      rw [UInt8.toNat_ofNat_of_lt' (Nat.lt_of_le_of_lt hc (by decide))] at hb
      exact Char.ext (UInt32.toNat.inj hb.symm)
    · obtain ⟨n, low, high, hn⟩ := mem_utf8EncodeChar_of_wide hc h
      have hb := congrArg UInt8.toNat hn
      rw [UInt8.toNat_ofNat_of_lt' high] at hb
      have : lineFeed.toNat = 10 := rfl
      omega
  · rintro rfl
    decide

theorem count_lineFeed_flatMap (text : List Char) :
    (text.flatMap String.utf8EncodeChar).count lineFeed = text.count '\n' := by
  induction text with
  | nil => rfl
  | cons c text ih =>
    rw [List.flatMap_cons, List.count_append, ih]
    by_cases hc : c = '\n'
    · subst hc
      have hb : (String.utf8EncodeChar '\n').count lineFeed = 1 := by decide
      rw [hb, List.count_cons_self]
      omega
    · have hb := List.count_eq_zero.mpr fun hm => hc (lineFeed_mem_utf8EncodeChar.mp hm)
      rw [hb, List.count_cons_of_ne hc]
      omega

theorem cut_append_of_not_mem {bytes : List UInt8} (h : lineFeed ∉ bytes) (rest : List UInt8)
    (line : Array UInt8) (lines : Array (Array UInt8)) :
    cut (bytes ++ rest) line lines = cut rest (line ++ bytes.toArray) lines := by
  induction bytes generalizing line with
  | nil => simp
  | cons b bytes ih =>
    obtain ⟨hb, ht⟩ := List.ne_and_not_mem_of_not_mem_cons h
    rw [List.cons_append, cut, if_neg hb.symm, ih ht]
    simp

theorem decode_utf8Encode (text : List Char) :
    decode text.utf8Encode.data = .ok (String.ofList text) := by
  have hv : ByteArray.IsValidUTF8 ⟨text.utf8Encode.data⟩ := ByteArray.isValidUTF8_utf8Encode
  have hs : String.fromUTF8? ⟨text.utf8Encode.data⟩ = some (String.ofList text) := by
    simp only [String.fromUTF8?, dif_pos hv, Option.some.injEq]
    rw [← String.toByteArray_inj, String.toByteArray_ofList]
    rfl
  simp only [decode, hs]

/-- Cutting the encoding of `rest` while the encoding of `text` is the open line. -/
theorem decode_cut_flatMap (rest text : List Char) (h : '\n' ∉ text)
    (lines : Array (Array UInt8)) :
    (cut (rest.flatMap String.utf8EncodeChar) text.utf8Encode.data lines).toList.map decode =
      lines.toList.map decode ++ itemsOf (text ++ rest) := by
  induction rest generalizing text lines with
  | nil =>
    simp only [List.flatMap_nil, cut, List.append_nil, itemsOf, splitText_of_not_mem h]
    by_cases ht : text = []
    · subst ht
      simp
    · have hn : text.utf8Encode.data.isEmpty = false := by
        rw [Array.isEmpty_eq_false_iff]
        intro he
        exact ht (List.utf8Encode_eq_empty.mp (ByteArray.ext he))
      simp [hn, ht, decode_utf8Encode]
  | cons c rest ih =>
    by_cases hc : c = '\n'
    · subst hc
      have hb : String.utf8EncodeChar '\n' = [lineFeed] := by decide
      have hl : text.utf8Encode.data.push lineFeed = (text ++ ['\n']).utf8Encode.data := by
        simp [List.utf8Encode_singleton, hb]
      rw [List.flatMap_cons, hb, List.singleton_append, cut, if_pos rfl, hl]
      have := ih [] (by simp) (lines.push (text ++ ['\n']).utf8Encode.data)
      simp only [List.utf8Encode_nil, ByteArray.data_empty] at this
      rw [this]
      simp only [Array.toList_push, List.map_append, List.map_cons, List.map_nil, decode_utf8Encode,
        itemsOf, List.nil_append, splitText_append_lineFeed h, List.append_assoc,
        List.singleton_append]
    · have hb : lineFeed ∉ String.utf8EncodeChar c :=
        fun hm => hc (lineFeed_mem_utf8EncodeChar.mp hm)
      have hl : text.utf8Encode.data ++ (String.utf8EncodeChar c).toArray =
          (text ++ [c]).utf8Encode.data := by
        simp [List.utf8Encode_singleton]
      rw [List.flatMap_cons, cut_append_of_not_mem hb, hl,
        ih (text ++ [c]) (by simp [h, Ne.symm hc])]
      simp

theorem ofBytes_toUTF8_ofList (text : List Char) :
    ofBytes (String.ofList text).toUTF8 = itemsOf text := by
  have h := decode_cut_flatMap text [] (by simp) #[]
  simpa [ofBytes, List.utf8Encode] using h

end Tabular.Lines
