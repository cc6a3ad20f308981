import Tabular.Proofs.Bytes.Literal
import Tabular.Proofs.Decimal.Numeral
import Tabular.Proofs.Shape

/-! # Literals can be read back

Two values of a shape have the same literal only if they are the same. A literal can be told from
what follows it, provided that no digit follows a number. Inside of lists and pairs a comma or a
closing bracket follows, so the parts can be told apart one by one, whatever texts they hold. An
absent value is told from a present one by its first letter, which no other literal starts with.
-/
namespace Tabular

open Literal (chars)

def Stops (rest : List Char) : Prop := ∀ c ∈ rest.head?, c.isDigit = false

theorem stops_nil : Stops [] := nofun

theorem stops_cons {c : Char} (h : c.isDigit = false) (rest : List Char) : Stops (c :: rest) := by
  rintro _ ⟨⟩
  exact h

/-- Literals that can be told from what follows them, up to values that are the same. Only where
values may be absent does a literal start as that of an absent value does. -/
structure Delimited {α : Type u} [Literal α] (same : α → α → Prop) (optional : Bool) : Prop where
  cut : ∀ {a b : α} {rest others : List Char}, Stops rest → Stops others →
    chars a ++ rest = chars b ++ others → same a b ∧ rest = others
  congr : ∀ {a b : α}, same a b → chars a = chars b
  start : ∀ a : α, ∃ c cs, chars a = c :: cs ∧ c ≠ ']' ∧ (optional = false → c ≠ 'N')

namespace Delimited

variable {α : Type u} [Literal α] {same : α → α → Prop} {optional : Bool}

theorem chars_eq_iff (h : Delimited same optional) {a b : α} : chars a = chars b ↔ same a b := by
  constructor
  · intro heq
    exact (h.cut stops_nil stops_nil (congrArg (· ++ []) heq)).1
  · exact h.congr

theorem digits_append_inj {m n : Nat} {rest others : List Char} (hrest : Stops rest)
    (hothers : Stops others) (h : Decimal.digits m ++ rest = Decimal.digits n ++ others) :
    m = n ∧ rest = others := by
  have hnone : ∀ {rest : List Char}, Stops rest → rest.takeWhile Char.isDigit = [] := by
    intro rest hrest
    cases rest with
    | nil => rfl
    | cons c rest => rw [List.takeWhile_cons_of_neg (by simp [hrest c rfl])]
  have hdigits := congrArg (List.takeWhile Char.isDigit) h
  rw [List.takeWhile_append_of_pos (Decimal.digits_digits m),
    List.takeWhile_append_of_pos (Decimal.digits_digits n), hnone hrest, hnone hothers,
    List.append_nil, List.append_nil] at hdigits
  have hvalue := congrArg (Nat.ofDigitChars 10 · 0) hdigits
  simp only [Decimal.digits, Nat.ofDigitChars_ten_toDigits] at hvalue
  rw [hdigits] at h
  exact ⟨hvalue, List.append_cancel_left h⟩

theorem exists_digits_cons (n : Nat) : ∃ c cs, Decimal.digits n = c :: cs ∧ c.isDigit = true := by
  cases hdigits : Decimal.digits n with
  | nil => exact absurd hdigits Nat.toDigits_ne_nil
  | cons c cs => exact ⟨c, cs, rfl, Decimal.digits_digits n c (hdigits ▸ List.mem_cons_self)⟩

theorem digits_append_ne (n : Nat) (rest others : List Char) :
    Decimal.digits n ++ rest ≠ '-' :: others := by
  obtain ⟨c, cs, hdigits, hc⟩ := exists_digits_cons n
  rw [hdigits]
  intro h
  rw [(List.cons.inj h).1] at hc
  cases hc

theorem int : Delimited (@Eq Int) false where
  cut := by
    intro a b rest others hrest hothers h
    cases a with
    | ofNat m =>
      cases b with
      | ofNat n =>
        obtain ⟨rfl, hsame⟩ := digits_append_inj hrest hothers h
        exact ⟨rfl, hsame⟩
      | negSucc n => exact absurd h (digits_append_ne m _ _)
    | negSucc m =>
      cases b with
      | ofNat n => exact absurd h.symm (digits_append_ne n _ _)
      | negSucc n =>
        obtain ⟨hsucc, hsame⟩ := digits_append_inj hrest hothers (List.cons.inj h).2
        cases hsucc
        exact ⟨rfl, hsame⟩
  congr := congrArg _
  start := by
    intro a
    cases a with
    | ofNat n =>
      obtain ⟨c, cs, hdigits, hc⟩ := exists_digits_cons n
      refine ⟨c, cs, hdigits, ?_, fun _ => ?_⟩ <;> rintro rfl <;> cases hc
    | negSucc n => exact ⟨'-', _, rfl, by decide, by decide⟩

theorem bool : Delimited (@Eq Bool) false where
  cut := by
    intro a b rest others _ _ h
    cases a <;> cases b
    · exact ⟨rfl, List.append_cancel_left h⟩
    · exact absurd (List.cons.inj h).1 (by decide)
    · exact absurd (List.cons.inj h).1 (by decide)
    · exact ⟨rfl, List.append_cancel_left h⟩
  congr := congrArg _
  start := by
    intro a
    cases a
    · exact ⟨'F', _, rfl, by decide, by decide⟩
    · exact ⟨'T', _, rfl, by decide, by decide⟩

theorem text : Delimited (@Eq String) false where
  cut := by
    intro a b rest others _ _ h
    have hquoted : ∀ (s : String) (rest : List Char), chars s ++ rest =
        let q := Text.QuoteChoice.ofChars s.toList
        q.quote :: (s.toList.flatMap (Text.escapeChar Text.isPlain q) ++ q.quote :: rest) := by
      intro s rest
      simp [chars, Text.quoted]
    rw [hquoted, hquoted] at h
    obtain ⟨hchars, hsame⟩ := Text.quoted_append_inj (Text.coded_isPlain _) (Text.coded_isPlain _)
      rfl rfl h
    exact ⟨String.toList_inj.mp hchars, hsame⟩
  congr := congrArg _
  start := by
    intro a
    refine ⟨_, _, rfl, ?_⟩
    rcases (Text.suits_ofChars a.toList).kind with hk | hk <;> rw [hk] <;> decide

theorem bytes : Delimited (fun a b : Bytes => a.data = b.data) false where
  cut := by
    intro a b rest others _ _ h
    have hquoted : ∀ (b : Bytes) (rest : List Char), chars b ++ rest =
        let q := Text.QuoteChoice.ofChars b.chars
        'b' :: q.quote ::
          (b.chars.flatMap (Text.escapeChar Text.isPrintable q) ++ q.quote :: rest) := by
      intro b rest
      simp [chars, Bytes.escapeWith]
    rw [hquoted, hquoted] at h
    obtain ⟨hchars, hsame⟩ := Text.quoted_append_inj a.coded_chars b.coded_chars rfl rfl
      (List.cons.inj h).2
    have hdata := a.mapM_byte?_chars
    rw [hchars, b.mapM_byte?_chars] at hdata
    exact ⟨(Option.some.inj hdata).symm, hsame⟩
  congr := by
    intro a b h
    simp only [chars, Bytes.escapeWith, Bytes.chars, h]
  start := fun a => ⟨'b', _, rfl, by decide, by decide⟩

variable {β : Type v} [Literal β] {same' : β → β → Prop} {optional' : Bool}

theorem pair (hfirst : Delimited same optional) (hsecond : Delimited same' optional') :
    Delimited (fun p q : α × β => same p.1 q.1 ∧ same' p.2 q.2) false where
  cut := by
    intro p q rest others _ _ h
    have hparts : ∀ (p : α × β) (rest : List Char),
        chars p ++ rest = '(' :: (chars p.1 ++ ',' :: ' ' :: (chars p.2 ++ ')' :: rest)) := by
      intro p rest
      simp [chars]
    rw [hparts, hparts] at h
    have hcomma : ∀ rest, Stops (',' :: rest) := stops_cons (by decide)
    have hclose : ∀ rest, Stops (')' :: rest) := stops_cons (by decide)
    obtain ⟨h₁, htail⟩ := hfirst.cut (hcomma _) (hcomma _) (List.cons.inj h).2
    obtain ⟨h₂, hend⟩ := hsecond.cut (hclose _) (hclose _) (List.cons.inj (List.cons.inj htail).2).2
    exact ⟨⟨h₁, h₂⟩, (List.cons.inj hend).2⟩
  congr := by
    intro p q h
    simp only [chars]
    rw [hfirst.congr h.1, hsecond.congr h.2]
  start := fun p => ⟨'(', _, rfl, by decide, by decide⟩

def remainder (rest : List Char) : List α → List Char
  | [] => ']' :: rest
  | a :: l => ',' :: ' ' :: (chars a ++ remainder rest l)

theorem chars_list_nil (rest : List Char) : chars ([] : List α) ++ rest = '[' :: ']' :: rest := rfl

theorem chars_list_cons (a : α) (l : List α) (rest : List Char) :
    chars (a :: l) ++ rest = '[' :: (chars a ++ remainder rest l) := by
  have hitems : ∀ (a : α) (l : List α),
      commaSeparated ((a :: l).map chars) ++ ']' :: rest = chars a ++ remainder rest l := by
    intro a l
    induction l generalizing a with
    | nil => simp [commaSeparated, remainder]
    | cons b l ih =>
      have hb := ih b
      simp only [commaSeparated, List.map_cons] at hb
      simp [commaSeparated, remainder, ← hb]
  rw [← hitems]
  simp [chars]

theorem stops_remainder (rest : List Char) (l : List α) : Stops (remainder rest l) := by
  cases l with
  | nil => exact stops_cons (by decide) _
  | cons a l => exact stops_cons (by decide) _

theorem remainder_inj (h : Delimited same optional) {rest others : List Char} {l m : List α}
    (heq : remainder rest l = remainder others m) : List.Forall₂ same l m ∧ rest = others := by
  induction l generalizing m with
  | nil =>
    cases m with
    | nil => exact ⟨.nil, (List.cons.inj heq).2⟩
    | cons b m => exact absurd (List.cons.inj heq).1 (by decide)
  | cons a l ih =>
    cases m with
    | nil => exact absurd (List.cons.inj heq).1 (by decide)
    | cons b m =>
      obtain ⟨hsame, htail⟩ := h.cut (stops_remainder _ _) (stops_remainder _ _)
        (List.cons.inj (List.cons.inj heq).2).2
      obtain ⟨hothers, hrest⟩ := ih htail
      exact ⟨.cons hsame hothers, hrest⟩

theorem map_chars_eq (h : Delimited same optional) {l m : List α} (hsame : List.Forall₂ same l m) :
    l.map chars = m.map chars := by
  induction hsame with
  | nil => rfl
  | cons hhead _ ih => rw [List.map_cons, List.map_cons, h.congr hhead, ih]

theorem list (h : Delimited same optional) : Delimited (List.Forall₂ same) false where
  cut := by
    intro l m rest others _ _ heq
    -- No element starts with a closing bracket, so a list that holds one is not taken for empty.
    have hempty : ∀ (a : α) (tail others : List Char), chars a ++ tail ≠ ']' :: others := by
      intro a tail others
      obtain ⟨c, cs, hchars, hc, -⟩ := h.start a
      rw [hchars]
      exact fun heq => hc (List.cons.inj heq).1
    cases l with
    | nil =>
      cases m with
      | nil => exact ⟨.nil, List.append_cancel_left heq⟩
      | cons b m =>
        rw [chars_list_nil, chars_list_cons] at heq
        exact absurd (List.cons.inj heq).2.symm (hempty b _ _)
    | cons a l =>
      cases m with
      | nil =>
        rw [chars_list_nil, chars_list_cons] at heq
        exact absurd (List.cons.inj heq).2 (hempty a _ _)
      | cons b m =>
        rw [chars_list_cons, chars_list_cons] at heq
        obtain ⟨hsame, htail⟩ := h.cut (stops_remainder _ _) (stops_remainder _ _)
          (List.cons.inj heq).2
        obtain ⟨hothers, hrest⟩ := h.remainder_inj htail
        exact ⟨.cons hsame hothers, hrest⟩
  congr := by
    intro l m hsame
    simp only [chars]
    rw [h.map_chars_eq hsame]
  start := fun l => ⟨'[', _, rfl, by decide, by decide⟩

end Delimited

namespace Shape

def isOption : Shape → Bool
  | option _ => true
  | _ => false

/-- The shapes made of whole numbers, truth values, texts and byte strings by lists, pairs and
options, without an option right inside another. -/
def isReadable : Shape → Bool
  | int => true
  | bool => true
  | text => true
  | bytes => true
  | option s => !s.isOption && s.isReadable
  | list s => s.isReadable
  | pair s t => s.isReadable && t.isReadable
  | _ => false

theorem isExact_of_isReadable {s : Shape} (h : s.isReadable = true) : s.isExact = true := by
  induction s with
  | float => cases h
  | single => cases h
  | triple => cases h
  | option s ih => exact ih ((Bool.and_eq_true _ _).mp h).2
  | list s ih => exact ih h
  | pair s t ihs iht =>
    obtain ⟨hs, ht⟩ := (Bool.and_eq_true _ _).mp h
    exact (Bool.and_eq_true _ _).mpr ⟨ihs hs, iht ht⟩
  | _ => rfl

/-- A present value is not taken for an absent one, since its literal does not start with the same
letter. -/
theorem delimited_option {s : Shape} [Literal s.Val] (h : Delimited s.Same false) :
    @Delimited s.option.Val (inferInstanceAs (Literal (Option s.Val))) s.option.Same true := by
  have hpresent : ∀ (a : s.Val) (rest others : List Char),
      chars a ++ rest ≠ "None".toList ++ others := by
    intro a rest others
    obtain ⟨c, cs, hchars, -, hc⟩ := h.start a
    rw [hchars]
    exact fun heq => hc rfl (List.cons.inj heq).1
  constructor
  · intro a b rest others hrest hothers heq
    cases a with
    | none =>
      cases b with
      | none => exact ⟨trivial, List.append_cancel_left heq⟩
      | some b => exact absurd heq.symm (hpresent b others rest)
    | some a =>
      cases b with
      | none => exact absurd heq (hpresent a rest others)
      | some b => exact h.cut hrest hothers heq
  · intro a b hsame
    cases a with
    | none =>
      cases b with
      | none => rfl
      | some b => cases hsame
    | some a =>
      cases b with
      | none => cases hsame
      | some b => exact h.congr hsame
  · intro a
    cases a with
    | none => exact ⟨'N', _, rfl, by decide, nofun⟩
    | some a =>
      obtain ⟨c, cs, hchars, hc, -⟩ := h.start a
      exact ⟨c, cs, hchars, hc, nofun⟩

theorem exists_delimited {s : Shape} (h : s.isReadable = true) :
    ∃ literals, s.literal? = some literals ∧ @Delimited s.Val literals s.Same s.isOption := by
  induction s with
  | int => exact ⟨_, rfl, .int⟩
  | bool => exact ⟨_, rfl, .bool⟩
  | text => exact ⟨_, rfl, .text⟩
  | bytes => exact ⟨_, rfl, .bytes⟩
  | option s ih =>
    obtain ⟨hplain, hs⟩ := (Bool.and_eq_true _ _).mp h
    obtain ⟨literals, hliterals, hdelimited⟩ := ih hs
    rw [Bool.not_eq_true'] at hplain
    rw [hplain] at hdelimited
    exact ⟨_, by rw [literal?, hliterals]; rfl, delimited_option hdelimited⟩
  | list s ih =>
    obtain ⟨literals, hliterals, hdelimited⟩ := ih h
    exact ⟨_, by rw [literal?, hliterals]; rfl, hdelimited.list⟩
  | pair s t ihs iht =>
    obtain ⟨hs, ht⟩ := (Bool.and_eq_true _ _).mp h
    obtain ⟨literals, hliterals, hfirst⟩ := ihs hs
    obtain ⟨literals', hliterals', hsecond⟩ := iht ht
    exact ⟨_, by rw [literal?, hliterals, hliterals']; rfl, hfirst.pair hsecond⟩
  | float => cases h
  | single => cases h
  | char => cases h
  | unit => cases h
  | triple => cases h

/-- Two values of a readable shape have the same literal exactly if they are the same, and so, if
they remember no wrong hashes, exactly if they are equal. Between the quotes of the literal of a
text the quote is always part of an escape, and undoing the escapes gives the text. -/
theorem literals_can_be_read_back {s : Shape} (h : s.isReadable = true) :
    (∃ literals : Literal s.Val, s.literal? = some literals ∧
      ∀ a b : s.Val, (literal a = literal b ↔ s.Same a b) ∧
        ∀ mix, s.Coherent mix a → s.Coherent mix b → (literal a = literal b ↔ (a == b) = true)) ∧
    ∀ t : String,
      let quote := (Text.chooseQuote (t.toList.contains '\'') (t.toList.contains '"')).quote
      ∃ body, (literal t).toList = quote :: body ++ [quote] ∧ Text.Guarded quote body ∧
        Text.unescape? body = some t.toList := by
  constructor
  · obtain ⟨literals, hliterals, hdelimited⟩ := exists_delimited h
    have hsame : ∀ {a b : s.Val}, literal a = literal b ↔ s.Same a b := by
      intro a b
      rw [literal, literal, String.ofList_inj, hdelimited.chars_eq_iff]
    refine ⟨literals, hliterals, fun a b => ⟨hsame, ?_⟩⟩
    intro mix ha hb
    rw [hsame, beq_iff_same (isExact_of_isReadable h) ha hb]
  · intro t
    have hsuits := Text.suits_ofChars t.toList
    refine ⟨_, ?_, Text.guarded_flatMap hsuits Text.isPlain,
      Text.unescape?_flatMap hsuits.single (Text.coded_isPlain _)⟩
    rw [literal, String.toList_ofList]
    rfl

/-- A text that looks like two texts, and a text that looks like an absent one. -/
theorem literals_can_be_read_back_commas :
    let s : Shape := .list (.option .text)
    s.isReadable = true ∧ ∃ literals : Literal s.Val, s.literal? = some literals ∧
      literal ([some "a', 'b", none] : s.Val) ≠ literal ([some "a", some "b", none] : s.Val) ∧
      literal ([some "None"] : s.Val) ≠ literal ([none] : s.Val) := by
  obtain ⟨⟨literals, hliterals, hinj⟩, -⟩ :=
    @literals_can_be_read_back (.list (.option .text)) rfl
  refine ⟨rfl, literals, hliterals, ?_, ?_⟩
  · intro heq
    obtain ⟨hfirst, -⟩ := List.forall₂_cons.mp ((hinj _ _).1.mp heq)
    exact absurd hfirst (by decide : "a', 'b" ≠ "a")
  · intro heq
    obtain ⟨hfirst, -⟩ := List.forall₂_cons.mp ((hinj _ _).1.mp heq)
    exact hfirst

/-- Options right inside others can be absent in two ways, which are written alike. -/
example : literal (some none : Option (Option Int)) = literal (none : Option (Option Int)) := rfl

end Shape

end Tabular
