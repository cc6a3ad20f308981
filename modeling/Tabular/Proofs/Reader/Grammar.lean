import Tabular.Proofs.Reader.Field

/-! # The grammar of records

The texts of records under a dialect that doubles its quotes and escapes nothing, as a grammar that
knows neither lines nor states. The machine accepts exactly the texts of the grammar, with the
record that the grammar assigns to them.
-/
namespace Tabular.Grammar

def Inner (d : Dialect) (c : Char) : Prop := isBreak c = false ∧ c ≠ d.delimiter

def Breaks (t : List Char) : Prop := ∀ c ∈ t, isBreak c = true

/-- What stands between quotes `q`, and the text that it means: a quote is written twice. -/
inductive Body (q : Char) : List Char → List Char → Prop where
  | nil : Body q [] []
  | char {c : Char} {w v : List Char} : c ≠ q → Body q w v → Body q (c :: w) (c :: v)
  | pair {w v : List Char} : Body q w v → Body q (q :: q :: w) (q :: v)

theorem Body.length_le {q : Char} {w v : List Char} (h : Body q w v) : v.length ≤ w.length := by
  induction h with
  | nil => exact Nat.le_refl _
  | char _ _ ih => exact Nat.succ_le_succ ih
  | pair _ ih =>
    simp only [List.length_cons]
    omega

/-- What may follow the closing quote `q`: nothing, or any text in a dialect that is not strict. -/
inductive Stray (d : Dialect) (q : Char) : List Char → Prop where
  | nil : Stray d q []
  | text {c : Char} {rest : List Char} : d.strict = false → c ≠ q → Inner d c →
      (∀ b ∈ rest, Inner d b) → Stray d q (c :: rest)

inductive Field (d : Dialect) : List Char → List Char → Prop where
  | empty : Field d [] []
  | plain {c : Char} {rest : List Char} : d.isQuote c = false → Inner d c →
      (∀ b ∈ rest, Inner d b) → Field d (c :: rest) (c :: rest)
  | quoted {q : Char} {w v x : List Char} : d.isQuote q = true → Body q w v → Stray d q x →
      Field d (q :: (w ++ q :: x)) (v ++ x)

inductive Fields (d : Dialect) : List Char → List (List Char) → Prop where
  | one {w v : List Char} : Field d w v → Fields d w [v]
  | more {w v ws : List Char} {vs : List (List Char)} : Field d w v → Fields d ws vs →
      Fields d (w ++ d.delimiter :: ws) (v :: vs)

/-- The text of a record: line breaks alone for the empty record, or else fields and the breaks
that end them. -/
inductive Spells (d : Dialect) : List Char → Record → Prop where
  | blank {t : List Char} : Breaks t → Spells d t []
  | fields {w t : List Char} {vs : List (List Char)} : Fields d w vs → Breaks t →
      ¬ Breaks (w ++ t) → Spells d (w ++ t) (vs.map String.ofList)

/-- The dialects of this grammar: quotes are doubled, nothing is escaped or skipped, and no field
has to name a number. -/
structure Regular (d : Dialect) : Prop where
  valid : d.validate = .ok ()
  escape : d.escape = none
  doubleQuote : d.doubleQuote = true
  skipInitialSpace : d.skipInitialSpace = false
  quoting : d.quoting ≠ .nonNumeric
  quote : ∀ q, d.quote = some q → isBreak q = false

namespace Regular

variable {d : Dialect}

theorem toValid (h : Regular d) : d.Valid := Dialect.validate_eq_ok.mp h.valid

theorem breakFree (h : Regular d) : d.BreakFree :=
  ⟨h.quote, fun e he => by simp [h.escape] at he⟩

theorem isEscape (h : Regular d) (c : Char) : d.isEscape c = false := by
  simp [Dialect.isEscape, h.escape]

theorem quoting_beq (h : Regular d) : (d.quoting == .nonNumeric) = false := by
  simpa using h.quoting

end Regular

theorem Field.head {d : Dialect} (hd : Regular d) {w v : List Char} (h : Field d w v) :
    w = [] ∨ ∃ c rest, w = c :: rest ∧ isBreak c = false := by
  cases h with
  | empty => exact .inl rfl
  | plain _ hinner _ => exact .inr ⟨_, _, rfl, hinner.1⟩
  | quoted hq _ _ => exact .inr ⟨_, _, rfl, hd.quote _ (Dialect.isQuote_iff.mp hq).2⟩

theorem Fields.head {d : Dialect} (hd : Regular d) {w : List Char} {vs : List (List Char)}
    (h : Fields d w vs) : w = [] ∨ ∃ c rest, w = c :: rest ∧ isBreak c = false := by
  cases h with
  | one hfield => exact hfield.head hd
  | more hfield _ =>
    rcases hfield.head hd with rfl | ⟨c, rest, rfl, hc⟩
    · exact .inr ⟨_, _, rfl, hd.toValid.delimiter_not_break⟩
    · exact .inr ⟨c, _, rfl, hc⟩

end Tabular.Grammar

namespace Tabular.Reader.Machine

open Grammar

variable {d : Dialect} {limit : Nat} {done : Array String} {numeric : Bool}

theorem scan_inner (hd : Regular d) {x : List Char} (hx : ∀ b ∈ x, Inner d b)
    (hnul : '\x00' ∉ x) (field : Array Char) (hlimit : field.size + x.length ≤ limit) :
    scan d limit (.of .inField done field numeric) x =
      .ok (.of .inField done (field ++ x.toArray) numeric) := by
  induction x generalizing field with
  | nil => simp [scan]
  | cons c x ih =>
    obtain ⟨hbreak, hdelim⟩ := hx c List.mem_cons_self
    have hc : c ≠ '\x00' := fun h => hnul (by simp [h])
    simp only [List.length_cons] at hlimit
    have hstep : step d limit (.of .inField done field numeric) (some c) =
        .ok (.of .inField done (field.push c) numeric) := by
      refine step_of_take ?_ (by simp only; omega)
      simp [Action.ofChar, Action.ofField, hbreak, hdelim, hd.isEscape]
    rw [scan_cons_of_step hc hstep, ih (fun b hb => hx b (List.mem_cons_of_mem _ hb))
      (fun h => hnul (List.mem_cons_of_mem _ h)) _ (by simp only [Array.size_push]; omega)]
    simp

theorem scan_body (hd : Regular d) {q : Char} (hq : d.isQuote q = true) {w v : List Char}
    (h : Body q w v) (hnul : '\x00' ∉ w) (field : Array Char)
    (hlimit : field.size + w.length ≤ limit) :
    scan d limit (.of .inQuoted done field numeric) w =
      .ok (.of .inQuoted done (field ++ v.toArray) numeric) := by
  induction h generalizing field with
  | nil => simp [scan]
  | @char c w v hcq _ ih =>
    have hc : c ≠ '\x00' := fun h => hnul (by simp [h])
    have hquote : d.isQuote c = false := by
      simpa using mt (Dialect.isQuote_unique hq).mp hcq
    simp only [List.length_cons] at hlimit
    have hstep : step d limit (.of .inQuoted done field numeric) (some c) =
        .ok (.of .inQuoted done (field.push c) numeric) := by
      refine step_of_take ?_ (by simp only; omega)
      simp [Action.ofChar, hd.isEscape, hquote]
    rw [scan_cons_of_step hc hstep, ih (fun h => hnul (List.mem_cons_of_mem _ h)) _
      (by simp only [Array.size_push]; omega)]
    simp
  | @pair w v _ ih =>
    have hc : q ≠ '\x00' := fun h => hnul (by simp [h])
    simp only [List.length_cons] at hlimit
    have hfirst : step d limit (.of .inQuoted done field numeric) (some q) =
        .ok (.of .quoteInQuoted done field numeric) :=
      step_of_move (by simp [Action.ofChar, hd.isEscape, hq])
    have hsecond : step d limit (.of .quoteInQuoted done field numeric) (some q) =
        .ok (.of .inQuoted done (field.push q) numeric) := by
      refine step_of_take ?_ (by simp only; omega)
      simp [Action.ofChar, Action.ofQuoteInQuoted, hd.doubleQuote, hq]
    rw [scan_cons_of_step hc hfirst, scan_cons_of_step hc hsecond,
      ih (fun h => hnul (by simp [h])) _ (by simp only [Array.size_push]; omega)]
    simp

theorem scan_field (hd : Regular d) {w v : List Char} (h : Field d w v) (hnul : '\x00' ∉ w)
    (hlimit : w.length ≤ limit) (done : Array String) :
    ∃ n, scan d limit (.of .startField done #[] false) w = .ok n ∧ n.Holds done v ∧
      n.state ≠ .afterEscapedBreak := by
  cases h with
  | empty => exact ⟨_, rfl, ⟨.inl rfl, rfl, rfl, fun h => by cases h⟩, by simp⟩
  | @plain c rest hquote hinner hrest =>
    have hc : c ≠ '\x00' := fun h => hnul (by simp [h])
    simp only [List.length_cons] at hlimit
    have hstep : step d limit (.of .startField done #[] false) (some c) =
        .ok (.of .inField done #[c] false) := by
      have ha : Action.ofChar d c .startField = .start c := by
        simp [Action.ofChar, Action.ofFieldStart, hinner.1, hinner.2, hquote, hd.isEscape,
          hd.skipInitialSpace]
      rw [step_some, ha]
      refine addThen_eq_ok.mpr ⟨by simp only [Array.size_empty]; omega, ?_⟩
      simp [hd.quoting_beq]
    refine ⟨(.of .inField done (#[c] ++ rest.toArray) false), ?_, ?_, by simp⟩
    · rw [scan_cons_of_step hc hstep]
      exact scan_inner hd hrest (fun h => hnul (List.mem_cons_of_mem _ h)) _
        (by simp only [List.size_toArray, List.length_cons, List.length_nil]; omega)
    · exact ⟨.inr (.inl rfl), rfl, by simp, fun h => by cases h⟩
  | @quoted q w v x hq hbody hstray =>
    have hc : q ≠ '\x00' := fun h => hnul (by simp [h])
    have hw : '\x00' ∉ w := fun h => hnul (by simp [h])
    have hx : '\x00' ∉ x := fun h => hnul (by simp [h])
    simp only [List.length_cons, List.length_append] at hlimit
    have hopen : step d limit (.of .startField done #[] false) (some q) =
        .ok (.of .inQuoted done #[] false) := by
      have hbreak := hd.quote q (Dialect.isQuote_iff.mp hq).2
      exact step_of_move (by simp [Action.ofChar, Action.ofFieldStart, hbreak, hq])
    have hinside : scan d limit (.of .inQuoted done #[] false) w =
        .ok (.of .inQuoted done (#[] ++ v.toArray) false) :=
      scan_body hd hq hbody hw #[] (by simp only [Array.size_empty]; omega)
    have hclose : step d limit (.of .inQuoted done (#[] ++ v.toArray) false) (some q) =
        .ok (.of .quoteInQuoted done (#[] ++ v.toArray) false) :=
      step_of_move (by simp [Action.ofChar, hd.isEscape, hq])
    rw [scan_cons_of_step hc hopen, scan_append_of_scan hinside, scan_cons_of_step hc hclose]
    cases hstray with
    | nil => exact ⟨_, rfl, ⟨.inr (.inr (.inr rfl)), rfl, by simp, fun h => by cases h⟩, by simp⟩
    | @text c rest hstrict hcq hinner hrest =>
      have hsize := hbody.length_le
      have hquote : d.isQuote c = false := by
        simpa using mt (Dialect.isQuote_unique hq).mp hcq
      simp only [List.length_cons] at hlimit
      have hstep : step d limit (.of .quoteInQuoted done (#[] ++ v.toArray) false) (some c) =
          .ok (.of .inField done ((#[] ++ v.toArray).push c) false) := by
        refine step_of_take ?_ (by simp; omega)
        simp [Action.ofChar, Action.ofQuoteInQuoted, hquote, hinner.1, hinner.2, hstrict]
      refine ⟨(.of .inField done ((#[] ++ v.toArray).push c ++ rest.toArray) false), ?_, ?_,
        by simp⟩
      · rw [scan_cons_of_step (fun h => hx (by simp [h])) hstep]
        exact scan_inner hd hrest (fun h => hx (List.mem_cons_of_mem _ h)) _ (by simp; omega)
      · exact ⟨.inr (.inl rfl), rfl, by simp, fun h => by cases h⟩

theorem feed_breaks {m : Machine} (hm : m.state = .afterBreak) {t : List Char} (ht : Breaks t) :
    m.feed d limit t = .ok (m.goto .startRecord) := by
  induction t with
  | nil => exact step_end_afterBreak hm
  | cons c t ih =>
    have hc := ht c List.mem_cons_self
    rw [feed_cons_of_step (ne_nul_of_isBreak hc) (step_afterBreak hm hc)]
    exact ih fun b hb => ht b (List.mem_cons_of_mem _ hb)

theorem Holds.feed_breaks (hd : d.Valid) (hb : d.BreakFree) {m : Machine} {text : List Char}
    (h : m.Holds done text) (hs : m.state ≠ .afterEscapedBreak) {t : List Char} (ht : Breaks t) :
    m.feed d limit t = .ok (closed .startRecord done text) := by
  cases t with
  | nil => exact h.step_end hs
  | cons c t =>
    have hc := ht c List.mem_cons_self
    rw [feed_cons_of_step (ne_nul_of_isBreak hc) (h.step_break hd hb.separable hc)]
    exact Machine.feed_breaks rfl fun b hb => ht b (List.mem_cons_of_mem _ hb)

theorem feed_fields (hd : Regular d) {w t : List Char} {vs : List (List Char)}
    (h : Fields d w vs) (ht : Breaks t) (hnul : '\x00' ∉ w) (hlimit : w.length ≤ limit)
    (done : Array String) :
    ∃ n, feed d limit (.of .startField done #[] false) (w ++ t) = .ok n ∧
      n.state = .startRecord ∧ n.fields.toList = done.toList ++ vs.map String.ofList := by
  induction h generalizing done with
  | @one w v hfield =>
    obtain ⟨m, hscan, hm, hs⟩ := scan_field hd hfield hnul hlimit done
    refine ⟨closed .startRecord done v, ?_, rfl, by simp [closed]⟩
    rw [feed_append_of_scan hscan]
    exact hm.feed_breaks hd.toValid hd.breakFree hs ht
  | @more w v ws vs hfield _ ih =>
    simp only [List.length_append, List.length_cons] at hlimit
    obtain ⟨m, hscan, hm, hs⟩ := scan_field hd hfield
      (fun h => hnul (by simp [h])) (by omega : w.length ≤ limit) done
    obtain ⟨n, hfeed, hn, hfields⟩ := ih (fun h => hnul (by simp [h])) (by omega)
      (done.push (String.ofList v))
    refine ⟨n, ?_, hn, by simp [hfields]⟩
    rw [List.append_assoc, feed_append_of_scan hscan, List.cons_append, feed_cons_of_step
      (fun h => hnul (by simp [h])) (hm.step_delimiter hd.toValid fun _ _ => hd.skipInitialSpace)]
    exact hfeed

theorem feed_startRecord {c : Char} (hc : isBreak c = false) (m : Machine) (rest : List Char) :
    (m.goto .startRecord).feed d limit (c :: rest) =
      (m.goto .startField).feed d limit (c :: rest) := by
  by_cases hnul : c = '\x00'
  · subst hnul
    rfl
  · rw [feed_cons _ hnul, feed_cons _ hnul, step_startRecord hc]

/-- The machine accepts what the grammar derives. -/
theorem feed_of_spells (hd : Regular d) {u : List Char} {record : Record} (h : Spells d u record)
    (hnul : '\x00' ∉ u) (hlimit : u.length ≤ limit) :
    ∃ n, feed d limit .empty u = .ok n ∧ n.state = .startRecord ∧ n.fields.toList = record := by
  cases h with
  | @blank t ht =>
    cases u with
    | nil => exact ⟨.empty, rfl, rfl, rfl⟩
    | cons c t =>
      have hc := ht c List.mem_cons_self
      have hstep : step d limit .empty (some c) = .ok (goto .empty .afterBreak) :=
        step_of_move (by simp [Action.ofChar, hc])
      refine ⟨goto .empty .startRecord, ?_, rfl, rfl⟩
      rw [feed_cons_of_step (ne_nul_of_isBreak hc) hstep]
      exact feed_breaks rfl fun b hb => ht b (List.mem_cons_of_mem _ hb)
  | @fields w t vs hfields ht hsome =>
    simp only [List.length_append] at hlimit
    obtain ⟨n, hfeed, hn, hrecord⟩ := feed_fields hd hfields ht
      (fun h => hnul (by simp [h])) (by omega : w.length ≤ limit) #[]
    refine ⟨n, ?_, hn, by simp [hrecord]⟩
    rcases hfields.head hd with rfl | ⟨c, rest, rfl, hc⟩
    · exact absurd ht hsome
    · rw [List.cons_append] at hfeed ⊢
      exact (feed_startRecord hc .empty (rest ++ t)).trans hfeed

end Tabular.Reader.Machine

namespace Tabular.Grammar

open Reader

variable {d : Dialect}

inductive After (d : Dialect) : List Char → List (List Char) → Prop where
  | done {t : List Char} : Breaks t → After d t []
  | more {w t : List Char} {vs : List (List Char)} : Fields d w vs → Breaks t →
      After d (d.delimiter :: (w ++ t)) vs

/-- The texts that complete the record from a state in which the open field holds `f`, with the
values of the open field and of those behind it. -/
inductive Remains (d : Dialect) : State → List Char → List Char → List (List Char) → Prop where
  | start {w v r : List Char} {vs : List (List Char)} : Field d w v → After d r vs →
      Remains d .startField [] (w ++ r) (v :: vs)
  | unquoted {f x r : List Char} {vs : List (List Char)} : (∀ b ∈ x, Inner d b) → After d r vs →
      Remains d .inField f (x ++ r) ((f ++ x) :: vs)
  | quoted {q : Char} {f w v x r : List Char} {vs : List (List Char)} : d.isQuote q = true →
      Body q w v → Stray d q x → After d r vs →
      Remains d .inQuoted f (w ++ q :: (x ++ r)) ((f ++ (v ++ x)) :: vs)
  | behindQuote {q : Char} {f x r : List Char} {vs : List (List Char)} : d.isQuote q = true →
      Stray d q x → After d r vs → Remains d .quoteInQuoted f (x ++ r) ((f ++ x) :: vs)
  | pair {q : Char} {f u : List Char} {vs : List (List Char)} : d.isQuote q = true →
      Remains d .inQuoted (f ++ [q]) u vs → Remains d .quoteInQuoted f (q :: u) vs
  | behindBreak {f t : List Char} : Breaks t → Remains d .afterBreak f t []

theorem Field.cons_after {w v r : List Char} {vs : List (List Char)} (h : Field d w v)
    (hr : After d r vs) : ∃ ws t, w ++ r = ws ++ t ∧ Fields d ws (v :: vs) ∧ Breaks t := by
  cases hr with
  | done ht => exact ⟨w, r, rfl, .one h, ht⟩
  | @more ws t vs hws ht => exact ⟨w ++ d.delimiter :: ws, t, by simp, .more h hws, ht⟩

theorem after_delimiter {f u : List Char} {vs : List (List Char)}
    (h : Remains d .startField f u vs) : After d (d.delimiter :: u) vs := by
  cases h with
  | start hfield hr =>
    obtain ⟨ws, t, hu, hws, ht⟩ := hfield.cons_after hr
    rw [hu]
    exact .more hws ht

theorem after_break {c : Char} (hc : isBreak c = true) {f u : List Char}
    {vs : List (List Char)} (h : Remains d .afterBreak f u vs) : After d (c :: u) vs := by
  cases h with
  | behindBreak ht =>
    refine .done ?_
    intro b hb
    rcases List.mem_cons.mp hb with rfl | hb
    · exact hc
    · exact ht b hb

theorem remains_start_quote {q : Char} (hq : d.isQuote q = true) {u : List Char}
    {vs : List (List Char)} (h : Remains d .inQuoted [] u vs) :
    Remains d .startField [] (q :: u) vs := by
  cases h with
  | @quoted q' _ w v x r vs hq' hbody hstray hr =>
    obtain rfl : q' = q := (Dialect.isQuote_unique hq).mp hq'
    have := Remains.start (.quoted hq hbody hstray) hr
    simpa using this

theorem remains_start_plain {c : Char} (hc : d.isQuote c = false) (hinner : Inner d c)
    {u : List Char} {vs : List (List Char)} (h : Remains d .inField [c] u vs) :
    Remains d .startField [] (c :: u) vs := by
  cases h with
  | unquoted hx hr => exact .start (.plain hc hinner hx) hr

theorem remains_inField {c : Char} (hinner : Inner d c) {f u : List Char}
    {vs : List (List Char)} (h : Remains d .inField (f ++ [c]) u vs) :
    Remains d .inField f (c :: u) vs := by
  cases h with
  | @unquoted _ x r vs hx hr =>
    have hcx : ∀ b ∈ c :: x, Inner d b := by
      intro b hb
      rcases List.mem_cons.mp hb with rfl | hb
      · exact hinner
      · exact hx b hb
    have := Remains.unquoted (f := f) hcx hr
    simpa using this

theorem remains_inQuoted {c : Char} (hc : d.isQuote c = false) {f u : List Char}
    {vs : List (List Char)} (h : Remains d .inQuoted (f ++ [c]) u vs) :
    Remains d .inQuoted f (c :: u) vs := by
  cases h with
  | @quoted q _ w v x r vs hq hbody hstray hr =>
    have hcq : c ≠ q := fun he => by simp [he, hq] at hc
    have := Remains.quoted (f := f) hq (.char hcq hbody) hstray hr
    simpa using this

theorem remains_inQuoted_quote {q : Char} (hq : d.isQuote q = true) {f u : List Char}
    {vs : List (List Char)} (h : Remains d .quoteInQuoted f u vs) :
    Remains d .inQuoted f (q :: u) vs := by
  cases h with
  | @behindQuote q' _ x r vs hq' hstray hr =>
    obtain rfl : q' = q := (Dialect.isQuote_unique hq).mp hq'
    exact Remains.quoted (f := f) hq .nil hstray hr
  | @pair q₁ _ u vs hq₁ h =>
    obtain rfl : q₁ = q := (Dialect.isQuote_unique hq).mp hq₁
    cases h with
    | @quoted q₂ _ w v x r vs hq₂ hbody hstray hr =>
      obtain rfl : q₂ = q₁ := (Dialect.isQuote_unique hq).mp hq₂
      have := Remains.quoted (f := f) hq (.pair hbody) hstray hr
      simpa using this

theorem remains_quoteInQuoted_stray {q c : Char} (hq : d.isQuote q = true)
    (hstrict : d.strict = false) (hc : d.isQuote c = false) (hinner : Inner d c) {f u : List Char}
    {vs : List (List Char)} (h : Remains d .inField (f ++ [c]) u vs) :
    Remains d .quoteInQuoted f (c :: u) vs := by
  cases h with
  | @unquoted _ x r vs hx hr =>
    have hcq : c ≠ q := fun he => by simp [he, hq] at hc
    have := Remains.behindQuote (f := f) hq (.text hstrict hcq hinner hx) hr
    simpa using this

end Tabular.Grammar

namespace Tabular.Reader.Machine

open Grammar

variable {d : Dialect} {limit : Nat} {m n : Machine} {c : Char}

structure Reading (d : Dialect) (m : Machine) : Prop where
  state : m.state ≠ .startRecord ∧ m.state ≠ .escaped ∧ m.state ≠ .escapedInQuoted ∧
    m.state ≠ .afterEscapedBreak
  start : m.state = .startField → m.field = #[]
  quote : m.state = .inQuoted ∨ m.state = .quoteInQuoted → ∃ q, d.isQuote q = true

/-- What is left to read behind `c` in machine `n` tells what was left before it in `m`. -/
def Extends (d : Dialect) (m : Machine) (c : Char) (n : Machine) : Prop :=
  Reading d n ∧ ∀ u vs, Remains d n.state n.field.toList u vs →
    ∃ vs', Remains d m.state m.field.toList (c :: u) vs' ∧
      n.fields.toList ++ vs.map String.ofList = m.fields.toList ++ vs'.map String.ofList

theorem extends_of_close {next : State} (hn : m.close next = .ok n)
    (hnext : next = .startField ∨ next = .afterBreak)
    (h : ∀ u vs, Remains d next [] u vs →
      Remains d m.state m.field.toList (c :: u) (m.field.toList :: vs)) : Extends d m c n := by
  obtain ⟨-, rfl⟩ := close_eq_ok.mp hn
  refine ⟨⟨?_, fun _ => rfl, ?_⟩, ?_⟩
  · rcases hnext with rfl | rfl <;> simp
  · rcases hnext with rfl | rfl <;> simp
  · intro u vs hr
    exact ⟨_, h u vs hr, by simp⟩

theorem extends_of_startField (hd : Regular d) {done : Array String} {numeric : Bool}
    (h : step d limit (.of .startField done #[] numeric) (some c) = .ok n) :
    Extends d (.of .startField done #[] numeric) c n := by
  rw [step_some] at h
  simp only [Action.ofChar, Action.ofFieldStart, hd.isEscape, hd.skipInitialSpace, Bool.and_false,
    Bool.false_eq_true, if_false] at h
  split at h
  next hbreak =>
    refine extends_of_close h (.inr rfl) ?_
    intro u vs hr
    exact .start .empty (after_break hbreak hr)
  next hbreak =>
    split at h
    next hquote =>
      cases h
      refine ⟨⟨by simp [goto], by simp [goto], fun _ => ⟨c, hquote⟩⟩, ?_⟩
      intro u vs hr
      exact ⟨vs, remains_start_quote hquote hr, rfl⟩
    next hquote =>
      split at h
      next hdelim =>
        obtain rfl : c = d.delimiter := by simpa using hdelim
        refine extends_of_close h (.inl rfl) ?_
        intro u vs hr
        exact .start .empty (after_delimiter hr)
      next hdelim =>
        have hinner : Inner d c := ⟨by simpa using hbreak, by simpa using hdelim⟩
        obtain ⟨-, rfl⟩ := addThen_eq_ok.mp h
        refine ⟨⟨by simp, by simp, by simp⟩, ?_⟩
        intro u vs hr
        exact ⟨vs, remains_start_plain (by simpa using hquote) hinner hr, rfl⟩

theorem extends_of_inField (hd : Regular d) {done : Array String} {field : Array Char}
    {numeric : Bool} (h : step d limit (.of .inField done field numeric) (some c) = .ok n) :
    Extends d (.of .inField done field numeric) c n := by
  rw [step_some] at h
  simp only [Action.ofChar, Action.ofField, hd.isEscape, Bool.false_eq_true, if_false] at h
  split at h
  next hbreak =>
    refine extends_of_close h (.inr rfl) ?_
    intro u vs hr
    have := Remains.unquoted (f := field.toList) (x := []) (by simp) (after_break hbreak hr)
    simpa using this
  next hbreak =>
    split at h
    next hdelim =>
      obtain rfl : c = d.delimiter := by simpa using hdelim
      refine extends_of_close h (.inl rfl) ?_
      intro u vs hr
      have := Remains.unquoted (f := field.toList) (x := []) (by simp) (after_delimiter hr)
      simpa using this
    next hdelim =>
      have hinner : Inner d c := ⟨by simpa using hbreak, by simpa using hdelim⟩
      obtain ⟨-, rfl⟩ := addThen_eq_ok.mp h
      refine ⟨⟨by simp, by simp, by simp⟩, ?_⟩
      intro u vs hr
      exact ⟨vs, remains_inField hinner (by simpa using hr), rfl⟩

theorem extends_of_inQuoted (hd : Regular d) {done : Array String} {field : Array Char}
    {numeric : Bool} (hm : ∃ q, d.isQuote q = true)
    (h : step d limit (.of .inQuoted done field numeric) (some c) = .ok n) :
    Extends d (.of .inQuoted done field numeric) c n := by
  rw [step_some] at h
  simp only [Action.ofChar, hd.isEscape, Bool.false_eq_true, if_false] at h
  split at h
  next hquote =>
    cases h
    refine ⟨⟨by simp [goto], by simp [goto], fun _ => hm⟩, ?_⟩
    intro u vs hr
    exact ⟨vs, remains_inQuoted_quote hquote hr, rfl⟩
  next hquote =>
    obtain ⟨-, rfl⟩ := addThen_eq_ok.mp h
    refine ⟨⟨by simp, by simp, fun _ => hm⟩, ?_⟩
    intro u vs hr
    exact ⟨vs, remains_inQuoted (by simpa using hquote) (by simpa using hr), rfl⟩

theorem extends_of_quoteInQuoted (hd : Regular d) {done : Array String} {field : Array Char}
    {numeric : Bool} (hm : ∃ q, d.isQuote q = true)
    (h : step d limit (.of .quoteInQuoted done field numeric) (some c) = .ok n) :
    Extends d (.of .quoteInQuoted done field numeric) c n := by
  obtain ⟨q, hq⟩ := hm
  rw [step_some] at h
  simp only [Action.ofChar, Action.ofQuoteInQuoted, hd.doubleQuote, Bool.true_and] at h
  split at h
  next hquote =>
    obtain ⟨-, rfl⟩ := addThen_eq_ok.mp h
    refine ⟨⟨by simp, by simp, fun _ => ⟨q, hq⟩⟩, ?_⟩
    intro u vs hr
    exact ⟨vs, .pair hquote (by simpa using hr), rfl⟩
  next hquote =>
    split at h
    next hdelim =>
      obtain rfl : c = d.delimiter := by simpa using hdelim
      refine extends_of_close h (.inl rfl) ?_
      intro u vs hr
      have := Remains.behindQuote (f := field.toList) hq .nil (after_delimiter hr)
      simpa using this
    next hdelim =>
      split at h
      next hbreak =>
        refine extends_of_close h (.inr rfl) ?_
        intro u vs hr
        have := Remains.behindQuote (f := field.toList) hq .nil (after_break hbreak hr)
        simpa using this
      next hbreak =>
        split at h
        · cases h
        next hstrict =>
          have hinner : Inner d c := ⟨by simpa using hbreak, by simpa using hdelim⟩
          obtain ⟨-, rfl⟩ := addThen_eq_ok.mp h
          refine ⟨⟨by simp, by simp, by simp⟩, ?_⟩
          intro u vs hr
          exact ⟨vs, remains_quoteInQuoted_stray hq (by simpa using hstrict)
            (by simpa using hquote) hinner (by simpa using hr), rfl⟩

theorem extends_of_afterBreak {done : Array String} {field : Array Char} {numeric : Bool}
    (h : step d limit (.of .afterBreak done field numeric) (some c) = .ok n) :
    Extends d (.of .afterBreak done field numeric) c n := by
  rw [step_some] at h
  simp only [Action.ofChar] at h
  split at h
  next hbreak =>
    cases h
    refine ⟨⟨by simp [goto], by simp [goto], by simp [goto]⟩, ?_⟩
    intro u vs hr
    cases hr with
    | behindBreak ht =>
      refine ⟨[], .behindBreak ?_, rfl⟩
      intro b hb
      rcases List.mem_cons.mp hb with rfl | hb
      · exact hbreak
      · exact ht b hb
  · cases h

theorem extends_of_step (hd : Regular d) (hm : Reading d m)
    (h : m.step d limit (some c) = .ok n) : Extends d m c n := by
  obtain ⟨⟨h₁, h₂, h₃, h₄⟩, hstart, hquote⟩ := hm
  rcases m with ⟨state, done, field, length, numeric, rfl⟩
  cases state with
  | startRecord => exact absurd rfl h₁
  | startField =>
    obtain rfl : field = #[] := hstart rfl
    exact extends_of_startField hd h
  | escaped => exact absurd rfl h₂
  | inField => exact extends_of_inField hd h
  | inQuoted => exact extends_of_inQuoted hd (hquote (.inl rfl)) h
  | escapedInQuoted => exact absurd rfl h₃
  | quoteInQuoted => exact extends_of_quoteInQuoted hd (hquote (.inr rfl)) h
  | afterBreak => exact extends_of_afterBreak h
  | afterEscapedBreak => exact absurd rfl h₄

theorem remains_of_end (hm : Reading d m) (h : m.step d limit none = .ok n)
    (hn : n.state = .startRecord) :
    ∃ vs, Remains d m.state m.field.toList [] vs ∧
      n.fields.toList = m.fields.toList ++ vs.map String.ofList := by
  obtain ⟨⟨h₁, h₂, h₃, h₄⟩, hstart, hquote⟩ := hm
  have hdone : After d [] [] := .done fun b hb => by cases hb
  rw [step_none] at h
  rcases m with ⟨state, done, field, length, numeric, rfl⟩
  cases state with
  | startRecord => exact absurd rfl h₁
  | startField =>
    obtain rfl : field = #[] := hstart rfl
    obtain ⟨-, rfl⟩ := close_eq_ok.mp h
    exact ⟨[[]], .start .empty hdone, by simp⟩
  | escaped => exact absurd rfl h₂
  | inField =>
    obtain ⟨-, rfl⟩ := close_eq_ok.mp h
    have := Remains.unquoted (f := field.toList) (x := []) (by simp) hdone
    exact ⟨[field.toList], by simpa using this, by simp⟩
  | inQuoted =>
    cases h
    cases hn
  | escapedInQuoted => exact absurd rfl h₃
  | quoteInQuoted =>
    obtain ⟨q, hq⟩ := hquote (.inr rfl)
    obtain ⟨-, rfl⟩ := close_eq_ok.mp h
    have := Remains.behindQuote (f := field.toList) hq .nil hdone
    exact ⟨[field.toList], by simpa using this, by simp⟩
  | afterBreak =>
    cases h
    exact ⟨[], .behindBreak (fun b hb => by cases hb), by simp [goto]⟩
  | afterEscapedBreak => exact absurd rfl h₄

theorem remains_of_feed (hd : Regular d) {u : List Char} (hm : Reading d m)
    (h : m.feed d limit u = .ok n) (hn : n.state = .startRecord) :
    ∃ vs, Remains d m.state m.field.toList u vs ∧
      n.fields.toList = m.fields.toList ++ vs.map String.ofList := by
  induction u generalizing m with
  | nil => exact remains_of_end hm h hn
  | cons c u ih =>
    obtain ⟨m₂, hscan, hend⟩ := feed_eq_ok.mp h
    obtain ⟨-, m₁, hstep, hrest⟩ := scan_cons_eq_ok.mp hscan
    obtain ⟨hm₁, hext⟩ := extends_of_step hd hm hstep
    obtain ⟨vs, hremains, hfields⟩ := ih hm₁ (feed_eq_ok.mpr ⟨m₂, hrest, hend⟩)
    obtain ⟨vs', hremains', hfields'⟩ := hext u vs hremains
    exact ⟨vs', hremains', hfields.trans hfields'⟩

theorem reading_startField (d : Dialect) : Reading d (.of .startField #[] #[] false) :=
  ⟨by simp, fun _ => rfl, by simp⟩

/-- What the machine accepts, the grammar derives. -/
theorem spells_of_feed (hd : Regular d) {u : List Char} (h : feed d limit .empty u = .ok n)
    (hn : n.state = .startRecord) : Spells d u n.fields.toList := by
  cases u with
  | nil =>
    cases h
    exact .blank fun b hb => by cases hb
  | cons c u =>
    cases hc : isBreak c with
    | true =>
      have hstep : step d limit .empty (some c) = .ok (goto .empty .afterBreak) :=
        step_of_move (by simp [Action.ofChar, hc])
      rw [feed_cons_of_step (ne_nul_of_isBreak hc) hstep] at h
      obtain ⟨vs, hremains, hfields⟩ := remains_of_feed hd ⟨by simp [goto], by simp [goto],
        by simp [goto]⟩ h hn
      cases hremains with
      | behindBreak ht =>
        rw [hfields]
        refine .blank ?_
        intro b hb
        rcases List.mem_cons.mp hb with rfl | hb
        · exact hc
        · exact ht b hb
    | false =>
      have hstart : feed d limit (.of .startField #[] #[] false) (c :: u) = .ok n :=
        (feed_startRecord hc .empty u).symm.trans h
      obtain ⟨vs, hremains, hfields⟩ := remains_of_feed hd (reading_startField d) hstart hn
      generalize htext : c :: u = text at hremains
      cases hremains with
      | @start w v r vs hfield hr =>
        obtain ⟨ws, t, hu, hws, ht⟩ := hfield.cons_after hr
        have hsome : ¬ Breaks (ws ++ t) := by
          intro hb
          have := hb c (by rw [← hu, ← htext]; exact List.mem_cons_self)
          simp [hc] at this
        rw [hfields, hu]
        exact .fields hws ht hsome

theorem feed_iff_spells (hd : Regular d) {u : List Char} (hnul : '\x00' ∉ u)
    (hlimit : u.length ≤ limit) {record : Record} :
    (∃ n, feed d limit .empty u = .ok n ∧ n.state = .startRecord ∧ n.fields.toList = record) ↔
      Spells d u record := by
  constructor
  · rintro ⟨n, h, hn, rfl⟩
    exact spells_of_feed hd h hn
  · intro h
    exact feed_of_spells hd h hnul hlimit

end Tabular.Reader.Machine
