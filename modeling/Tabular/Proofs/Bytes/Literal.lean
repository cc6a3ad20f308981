import Tabular.Bytes
import Tabular.Proofs.Text.Quoted

/-! # Literals of byte strings

The literal of a byte string is its escaped contents between the quotes that they call for, behind a
mark. Escaping without the quotes in view escapes a quote under the same circumstances, so both
texts agree. They hold printable characters only, and undoing the escapes gives the bytes back.
-/
namespace Tabular.Bytes

open Text (QuoteChoice)

def byte? (c : Char) : Option UInt8 := if c.toNat < 256 then some (.ofNat c.toNat) else none

def unescape? (cs : List Char) : Option (List UInt8) := (Text.unescape? cs).bind (·.mapM byte?)

theorem toNat_ofNat_byte (byte : UInt8) : (Char.ofNat byte.toNat).toNat = byte.toNat := by
  have hlt := byte.toNat_lt
  rw [Char.ofNat, dif_pos (.inl (by omega))]
  rfl

theorem byte?_ofNat (byte : UInt8) : byte? (Char.ofNat byte.toNat) = some byte := by
  rw [byte?, toNat_ofNat_byte, if_pos byte.toNat_lt, UInt8.ofNat_toNat]

theorem mapM_byte?_chars (b : Bytes) : b.chars.mapM byte? = some b.data := by
  rw [chars]
  induction b.data with
  | nil => rfl
  | cons byte data ih =>
    rw [List.map_cons, List.mapM_cons, byte?_ofNat, ih]
    rfl

theorem mem_chars_iff (b : Bytes) (byte : UInt8) :
    Char.ofNat byte.toNat ∈ b.chars ↔ byte ∈ b.data := by
  rw [chars, List.mem_map]
  constructor
  · rintro ⟨other, hmem, heq⟩
    have hsame := congrArg byte? heq
    rw [byte?_ofNat, byte?_ofNat] at hsame
    cases hsame
    exact hmem
  · exact fun hmem => ⟨byte, hmem, rfl⟩

theorem ofChars_chars (b : Bytes) :
    QuoteChoice.ofChars b.chars = Text.chooseQuote (b.data.contains 39) (b.data.contains 34) := by
  have hcontains : ∀ byte : UInt8,
      b.chars.contains (Char.ofNat byte.toNat) = b.data.contains byte := by
    intro byte
    rw [Bool.eq_iff_iff, List.contains_iff_mem, List.contains_iff_mem, mem_chars_iff]
  rw [← hcontains, ← hcontains]
  rfl

theorem coded_chars (b : Bytes) : Text.Coded Text.isPrintable b.chars := by
  intro c hc _
  obtain ⟨byte, -, rfl⟩ := List.mem_map.mp hc
  rw [toNat_ofNat_byte]
  exact byte.toNat_lt

/-- Where no quote is escaped it does not matter which one was chosen. -/
theorem escapeChar_of_not_escaped (plain : Char → Bool) {p q : QuoteChoice} (hp : p.escaped = false)
    (hq : q.escaped = false) : Text.escapeChar plain p = Text.escapeChar plain q := by
  funext c
  simp only [Text.escapeChar, hp, hq, Bool.and_false]

/-- The two choices differ if single quotes alone occur, but then neither escapes any. -/
theorem escape_eq_escapeWith (b : Bytes) : b.escape = b.escapeWith (.ofChars b.chars) := by
  rw [escape, escapeWith, escapeWith, QuoteChoice.ofChars]
  cases b.chars.contains '\'' with
  | false => rfl
  | true =>
    cases b.chars.contains '"' with
    | false =>
      have hsame : Text.escapeChar Text.isPrintable ⟨'\'', false⟩ =
          Text.escapeChar Text.isPrintable ⟨'"', false⟩ := escapeChar_of_not_escaped _ rfl rfl
      exact congrArg b.chars.flatMap hsame
    | true => rfl

theorem isPrintable_of_meant? {letter c : Char} (h : Text.meant? letter = some c) :
    Text.isPrintable letter = true := by
  unfold Text.meant? at h
  split at h <;> cases h <;> decide

theorem isPrintable_of_written {q : QuoteChoice} {c : Char} {written : List Char}
    (h : Text.Written Text.isPrintable q c written) : ∀ a ∈ written, Text.isPrintable a = true := by
  cases h with
  | letter hletter => simpa using ⟨by decide, isPrintable_of_meant? hletter⟩
  | plain _ hplain => simpa using hplain
  | code =>
    have hdigit : ∀ n < 16, Text.isPrintable (Nat.digitChar n) = true := by decide
    simpa [Text.hexEscape] using ⟨by decide, by decide, hdigit _ (by omega), hdigit _ (by omega)⟩

theorem isPrintable_of_mem_escape (b : Bytes) : ∀ a ∈ b.escape, Text.isPrintable a = true := by
  rw [escape_eq_escapeWith, escapeWith, List.forall_mem_flatMap]
  intro c _
  exact isPrintable_of_written (Text.written_escapeChar (Text.suits_ofChars b.chars).single _ c)

/-- The literal of a byte string is the mark, the quote, what `escape` gives and the quote again.
What is between the quotes is printable, holds the quote only as part of an escape, and stands for
the contents. -/
theorem literal_is_well_formed (b : Bytes) :
    let quote := (Text.chooseQuote (b.data.contains 39) (b.data.contains 34)).quote
    (literal b).toList = 'b' :: quote :: b.escape ++ [quote] ∧
    (∀ c ∈ b.escape, 0x20 ≤ c.toNat ∧ c.toNat ≤ 0x7e) ∧
    Text.Guarded quote b.escape ∧
    unescape? b.escape = some b.data := by
  have hsuits := Text.suits_ofChars b.chars
  rw [← ofChars_chars]
  refine ⟨?_, ?_, ?_, ?_⟩
  · rw [literal, String.toList_ofList, escape_eq_escapeWith]
    rfl
  · intro c hc
    simpa [Text.isPrintable] using isPrintable_of_mem_escape b c hc
  · rw [escape_eq_escapeWith]
    exact Text.guarded_flatMap hsuits _
  · rw [unescape?, escape_eq_escapeWith, escapeWith,
      Text.unescape?_flatMap hsuits.single (coded_chars b)]
    exact mapM_byte?_chars b

/-- Both kinds of quotes, a backslash in front of what looks like a code, and a byte that is not
printable. -/
theorem literal_is_well_formed_mixed :
    let b : Bytes := { data := [39, 34, 92, 120, 52, 49, 255] }
    literal b = "b'\\'\"\\\\x41\\xff'" ∧ '\'' ∈ b.escape ∧ 0x20 ≤ '\''.toNat ∧
      Text.Guarded '\'' b.escape ∧ unescape? b.escape = some [39, 34, 92, 120, 52, 49, 255] := by
  obtain ⟨-, hprintable, hguarded, hback⟩ :=
    literal_is_well_formed { data := [39, 34, 92, 120, 52, 49, 255] }
  have hmem : '\'' ∈ ({ data := [39, 34, 92, 120, 52, 49, 255] } : Bytes).escape := by decide
  exact ⟨by decide, hmem, (hprintable _ hmem).1, hguarded, hback⟩

end Tabular.Bytes
