import Tabular.Text.Quoted

/-! # Quoted text can be read back

Between its quotes a text is written character by character, some of them as escapes. Undoing the
escapes from left to right gives the text back. The quote is written only behind the backslash of an
escape, so the first one that stands elsewhere is the end, whatever follows.
-/
namespace Tabular.Text

def hexValue? (c : Char) : Option Nat :=
  if '0' ≤ c ∧ c ≤ '9' then some (c.toNat - 48)
  else if 'a' ≤ c ∧ c ≤ 'f' then some (c.toNat - 87)
  else none

def meant? : Char → Option Char
  | '\\' => some '\\'
  | 'n' => some '\n'
  | 'r' => some '\r'
  | 't' => some '\t'
  | '\'' => some '\''
  | _ => none

def unescape? : List Char → Option (List Char)
  | [] => some []
  | '\\' :: 'x' :: high :: low :: rest =>
    match hexValue? high, hexValue? low with
    | some h, some l => (unescape? rest).map (Char.ofNat (16 * h + l) :: ·)
    | _, _ => none
  | '\\' :: letter :: rest =>
    match meant? letter with
    | some c => (unescape? rest).map (c :: ·)
    | none => none
  | ['\\'] => none
  | c :: rest => (unescape? rest).map (c :: ·)

theorem unescape?_plain {c : Char} (h : c ≠ '\\') (rest : List Char) :
    unescape? (c :: rest) = (unescape? rest).map (c :: ·) := by
  rw [unescape?]
  all_goals simp [h]

theorem unescape?_letter {letter c : Char} (h : meant? letter = some c) (rest : List Char) :
    unescape? ('\\' :: letter :: rest) = (unescape? rest).map (c :: ·) := by
  rw [unescape?, h]
  rintro high low others rfl rfl
  cases h

theorem hexValue?_digitChar {n : Nat} (h : n < 16) : hexValue? (Nat.digitChar n) = some n := by
  revert n
  decide

theorem unescape?_hexEscape {code : Nat} (h : code < 256) (rest : List Char) :
    unescape? (hexEscape code ++ rest) = (unescape? rest).map (Char.ofNat code :: ·) := by
  have hhigh : hexValue? (Nat.digitChar (code / 16 % 16)) = some (code / 16 % 16) :=
    hexValue?_digitChar (by omega)
  have hlow : hexValue? (Nat.digitChar (code % 16)) = some (code % 16) :=
    hexValue?_digitChar (by omega)
  have hcode : 16 * (code / 16 % 16) + code % 16 = code := by omega
  simp only [hexEscape, List.cons_append, List.nil_append, unescape?, hhigh, hlow, hcode]

def QuoteChoice.EscapesSingle (q : QuoteChoice) : Prop := q.escaped = true → q.quote = '\''

inductive Written (plain : Char → Bool) (q : QuoteChoice) (c : Char) : List Char → Prop where
  | letter {letter : Char} : meant? letter = some c → Written plain q c ['\\', letter]
  | plain : c ≠ '\\' → plain c = true → (c = q.quote → q.escaped = false) → Written plain q c [c]
  | code : plain c = false → Written plain q c (hexEscape c.toNat)

variable {plain : Char → Bool} {q : QuoteChoice}

theorem meant?_of_escapeLetter? {c letter : Char} (h : escapeLetter? c = some letter) :
    meant? letter = some c := by
  unfold escapeLetter? at h
  split at h <;> cases h <;> rfl

theorem written_escapeChar (hq : q.EscapesSingle) (plain : Char → Bool) (c : Char) :
    Written plain q c (escapeChar plain q c) := by
  unfold escapeChar
  split
  case h_1 letter hletter => exact .letter (meant?_of_escapeLetter? hletter)
  case h_2 hnone =>
    have hne : c ≠ '\\' := by
      rintro rfl
      cases hnone
    split
    case isTrue hquote =>
      rw [Bool.and_eq_true, beq_iff_eq] at hquote
      obtain ⟨rfl, hescaped⟩ := hquote
      rw [hq hescaped]
      exact .letter rfl
    case isFalse hquote =>
      have hbare : c = q.quote → q.escaped = false := by simpa using hquote
      split
      case isTrue hplain => exact .plain hne hplain hbare
      case isFalse hplain => exact .code (by simpa using hplain)

theorem Written.unescape? {c : Char} {written : List Char} (h : Written plain q c written)
    (hcode : plain c = false → c.toNat < 256) (rest : List Char) :
    Text.unescape? (written ++ rest) = (Text.unescape? rest).map (c :: ·) := by
  cases h with
  | letter hletter => exact unescape?_letter hletter rest
  | plain hne => exact unescape?_plain hne rest
  | code hplain =>
    have hback := unescape?_hexEscape (hcode hplain) rest
    rwa [Char.ofNat_toNat] at hback

def Coded (plain : Char → Bool) (cs : List Char) : Prop := ∀ c ∈ cs, plain c = false → c.toNat < 256

theorem coded_isPlain (cs : List Char) : Coded isPlain cs := by
  intro c _ h
  simp only [isPlain, Bool.and_eq_false_iff, decide_eq_false_iff_not, bne_eq_false_iff_eq] at h
  omega

theorem unescape?_flatMap (hq : q.EscapesSingle) {cs : List Char} (h : Coded plain cs) :
    unescape? (cs.flatMap (escapeChar plain q)) = some cs := by
  induction cs with
  | nil => rfl
  | cons c cs ih =>
    obtain ⟨hc, hcs⟩ := List.forall_mem_cons.mp h
    rw [List.flatMap_cons, (written_escapeChar hq plain c).unescape? hc, ih hcs]
    rfl

inductive Guarded (quote : Char) : List Char → Prop where
  | nil : Guarded quote []
  | plain {c : Char} {rest : List Char} :
      c ≠ '\\' → c ≠ quote → Guarded quote rest → Guarded quote (c :: rest)
  | escape {c : Char} {rest : List Char} :
      Guarded quote rest → Guarded quote ('\\' :: c :: rest)

/-- Two texts up to their quotes are the same if they go on in the same way. -/
theorem Guarded.append_inj {quote : Char} (hquote : quote ≠ '\\') {first second : List Char}
    (h₁ : Guarded quote first) (h₂ : Guarded quote second) {rest others : List Char}
    (h : first ++ quote :: rest = second ++ quote :: others) : first = second ∧ rest = others := by
  induction h₁ generalizing second with
  | nil =>
    cases h₂ with
    | nil => exact ⟨rfl, (List.cons.inj h).2⟩
    | plain _ hne => exact absurd (List.cons.inj h).1.symm hne
    | escape => exact absurd (List.cons.inj h).1 hquote
  | plain hc hne _ ih =>
    cases h₂ with
    | nil => exact absurd (List.cons.inj h).1 hne
    | plain _ _ hsecond =>
      obtain ⟨rfl, htail⟩ := List.cons.inj h
      obtain ⟨rfl, rfl⟩ := ih hsecond htail
      exact ⟨rfl, rfl⟩
    | escape => exact absurd (List.cons.inj h).1 hc
  | escape _ ih =>
    cases h₂ with
    | nil => exact absurd (List.cons.inj h).1.symm hquote
    | plain hc => exact absurd (List.cons.inj h).1.symm hc
    | escape hsecond =>
      obtain ⟨rfl, htail⟩ := List.cons.inj (List.cons.inj h).2
      obtain ⟨rfl, rfl⟩ := ih hsecond htail
      exact ⟨rfl, rfl⟩

structure QuoteChoice.Suits (q : QuoteChoice) (cs : List Char) : Prop where
  kind : q.quote = '\'' ∨ q.quote = '"'
  single : q.EscapesSingle
  escaped : q.quote ∈ cs → q.escaped = true

theorem suits_ofChars (cs : List Char) : (QuoteChoice.ofChars cs).Suits cs := by
  unfold QuoteChoice.ofChars chooseQuote
  split
  case isTrue h =>
    have hdouble : '"' ∉ cs := by
      simp only [Bool.and_eq_true, Bool.not_eq_true', List.contains_eq_mem,
        decide_eq_false_iff_not] at h
      exact h.2
    constructor
    · exact .inr rfl
    · exact nofun
    · exact fun hmem => absurd hmem hdouble
  case isFalse =>
    constructor
    · exact .inl rfl
    · exact fun _ => rfl
    · exact fun hmem => List.contains_iff_mem.mpr hmem

theorem QuoteChoice.Suits.tail {c : Char} {cs : List Char} (h : q.Suits (c :: cs)) : q.Suits cs :=
  ⟨h.kind, h.single, fun hmem => h.escaped (List.mem_cons_of_mem c hmem)⟩

theorem digitChar_ne {n : Nat} (h : n < 16) :
    Nat.digitChar n ≠ '\\' ∧ Nat.digitChar n ≠ '\'' ∧ Nat.digitChar n ≠ '"' := by
  revert n
  decide

theorem Written.guarded {c : Char} {written rest : List Char} (h : Written plain q c written)
    (hkind : q.quote = '\'' ∨ q.quote = '"') (hc : c = q.quote → q.escaped = true)
    (hrest : Guarded q.quote rest) : Guarded q.quote (written ++ rest) := by
  cases h with
  | letter => exact .escape hrest
  | plain hne _ hbare =>
    refine .plain hne ?_ hrest
    intro heq
    rw [hc heq] at hbare
    cases hbare heq
  | code =>
    have hdigit : ∀ {n : Nat}, n < 16 → ∀ {rest}, Guarded q.quote rest →
        Guarded q.quote (Nat.digitChar n :: rest) := by
      intro n hn rest hrest
      obtain ⟨hslash, hsingle, hdouble⟩ := digitChar_ne hn
      refine .plain hslash ?_ hrest
      rcases hkind with hk | hk <;> rwa [hk]
    exact .escape (hdigit (by omega) (hdigit (by omega) hrest))

theorem guarded_flatMap {cs : List Char} (hq : q.Suits cs) (plain : Char → Bool) :
    Guarded q.quote (cs.flatMap (escapeChar plain q)) := by
  induction cs with
  | nil => exact .nil
  | cons c cs ih =>
    have hc : c = q.quote → q.escaped = true := by
      rintro rfl
      exact hq.escaped List.mem_cons_self
    exact (written_escapeChar hq.single plain c).guarded hq.kind hc (ih hq.tail)

/-- Text between its quotes ends at the second of them: it can be told from what follows. -/
theorem quoted_append_inj {cs ds : List Char} (hc : Coded plain cs) (hd : Coded plain ds)
    {rest others : List Char} {p q : QuoteChoice} (hp : p = .ofChars cs) (hq : q = .ofChars ds)
    (h : p.quote :: (cs.flatMap (escapeChar plain p) ++ p.quote :: rest) =
      q.quote :: (ds.flatMap (escapeChar plain q) ++ q.quote :: others)) :
    cs = ds ∧ rest = others := by
  have hp' : p.Suits cs := hp ▸ suits_ofChars cs
  have hq' : q.Suits ds := hq ▸ suits_ofChars ds
  obtain ⟨hquote, hbodies⟩ := List.cons.inj h
  have hslash : p.quote ≠ '\\' := by
    rcases hp'.kind with hk | hk <;> rw [hk] <;> decide
  have hfirst := guarded_flatMap hp' plain
  have hsecond := guarded_flatMap hq' plain
  rw [← hquote] at hsecond hbodies
  obtain ⟨hsame, hrest⟩ := hfirst.append_inj hslash hsecond hbodies
  have hback := unescape?_flatMap hp'.single hc
  rw [hsame, unescape?_flatMap hq'.single hd] at hback
  exact ⟨(Option.some.inj hback).symm, hrest⟩

end Tabular.Text
