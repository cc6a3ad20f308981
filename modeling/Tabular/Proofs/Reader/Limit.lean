import Tabular.Proofs.Reader.Ending
import Tabular.Proofs.Reader.Restart

/-! # The limit on the length of fields

The limit settles one question only, whether the open field takes another character. So a reader
does what one with a larger limit does, until a field outgrows the limit. From there on the field
never gets shorter, and a record that is completed with it has a field that is too long.
-/
namespace Tabular.Reader

variable {d : Dialect} {limit ample : Nat}

/-- What comes out under `limit` where `full` comes out under a larger one: the same if it is not
too `long`, or else the failure that names the limit. -/
def Caps {α : Type} (limit : Nat) (long : α → Prop) (full capped : Except Failure α) : Prop :=
  capped = full ∧ (∀ a, full = .ok a → ¬ long a) ∨
    capped = .error (.fieldLimit limit) ∧ ∀ a, full = .ok a → long a

namespace Caps

variable {α β : Type} {long : α → Prop} {long' : β → Prop}

theorem ok {a : α} (ha : ¬ long a) : Caps limit long (.ok a) (.ok a) := by
  refine .inl ⟨rfl, fun b hb => ?_⟩
  cases hb
  exact ha

theorem error (cause : Failure) : Caps limit long (.error cause) (.error cause) :=
  .inl ⟨rfl, fun a ha => by cases ha⟩

theorem bind {full capped : Except Failure α} {f g : α → Except Failure β}
    (h : Caps limit long full capped) (hgo : ∀ {a}, ¬ long a → Caps limit long' (f a) (g a))
    (hkeep : ∀ {a b}, long a → f a = .ok b → long' b) :
    Caps limit long' (full.bind f) (capped.bind g) := by
  rcases h with ⟨rfl, hshort⟩ | ⟨rfl, hlong⟩
  · cases capped with
    | error cause => exact .error cause
    | ok a => exact hgo (hshort a rfl)
  · refine .inr ⟨rfl, fun b hb => ?_⟩
    cases full with
    | error cause => cases hb
    | ok a => exact hkeep (hlong a rfl) hb

end Caps

def LongRecord (limit : Nat) (record : Record) : Prop := ∃ s ∈ record, limit < s.length

namespace Machine

variable {m n : Machine}

def Exceeds (limit : Nat) (m : Machine) : Prop :=
  limit < m.field.size ∨ LongRecord limit m.fields.toList

theorem not_exceeds_empty (limit : Nat) : ¬ Exceeds limit .empty := by
  simp [Exceeds, LongRecord]

theorem longRecord_push {fields : Array String} {text : List Char} :
    LongRecord limit (fields.push (String.ofList text)).toList ↔
      LongRecord limit fields.toList ∨ limit < text.length := by
  simp [LongRecord, or_and_right, exists_or]

theorem exceeds_closed {next : State} (h : m.close next = .ok n) :
    n.Exceeds limit ↔ m.Exceeds limit := by
  obtain ⟨-, rfl⟩ := close_eq_ok.mp h
  simp only [Exceeds, longRecord_push, Array.length_toList]
  simp [or_comm]

theorem Exceeds.addThen {c : Char} {next : State} (hm : m.Exceeds limit)
    (h : m.addThen ample c next = .ok n) : n.Exceeds limit := by
  obtain ⟨-, rfl⟩ := addThen_eq_ok.mp h
  rcases hm with hfield | hfields
  · left
    rw [Array.size_push]
    omega
  · exact .inr hfields

theorem Exceeds.perform {a : Action} (hm : m.Exceeds limit) (h : a.perform d ample m = .ok n) :
    n.Exceeds limit := by
  cases a with
  | move next =>
    cases h
    exact hm
  | take c next => exact hm.addThen h
  | start c =>
    have hstart : Exceeds limit { m with numeric := m.numeric || d.quoting == .nonNumeric } := hm
    exact hstart.addThen h
  | close next => exact (exceeds_closed h).mpr hm
  | refuse cause => cases h

theorem Exceeds.step {c? : Option Char} (hm : m.Exceeds limit) (h : m.step d ample c? = .ok n) :
    n.Exceeds limit := by
  cases c? with
  | none =>
    rw [step_none] at h
    exact hm.perform h
  | some c =>
    rw [step_some] at h
    exact hm.perform h

theorem Exceeds.feed {text : List Char} (hm : m.Exceeds limit) (h : m.feed d ample text = .ok n) :
    n.Exceeds limit :=
  feed_keeps (fun _ _ _ _ hm h => hm.step h) (fun _ _ hm h => hm.step h) hm h

theorem Exceeds.readLine {line : String} (hm : m.Exceeds limit)
    (h : m.readLine d ample line = .ok n) : n.Exceeds limit := by
  apply readLine_keeps _ _ _ hm h
  · exact fun m n c _ hm h => hm.step h
  · exact fun m n hm h => hm.step h
  · exact fun m n hm h => resume_keeps hm (fun _ => hm.addThen) h

theorem Exceeds.ending (hm : m.Exceeds limit) (h : m.ending d ample = .ok n) : n.Exceeds limit := by
  obtain ⟨m', rfl | ⟨-, e, -, hadd⟩, hclose⟩ := ending_eq_ok h
  · exact (exceeds_closed hclose).mpr hm
  · exact (exceeds_closed hclose).mpr (hm.addThen hadd)

section Capped

variable (hle : limit ≤ ample) (hm : ¬ m.Exceeds limit)
include hle hm

theorem caps_addThen (c : Char) (next : State) :
    Caps limit (Exceeds limit) (m.addThen ample c next) (m.addThen limit c next) := by
  by_cases hsize : m.field.size < limit
  · rw [addThen_eq, addThen_eq, if_pos hsize, if_pos (Nat.lt_of_lt_of_le hsize hle)]
    apply Caps.ok
    rintro (hfield | hfields)
    · rw [Array.size_push] at hfield
      omega
    · exact hm (.inr hfields)
  · refine .inr ⟨by rw [addThen_eq, if_neg hsize], fun n hn => ?_⟩
    obtain ⟨-, rfl⟩ := addThen_eq_ok.mp hn
    left
    rw [Array.size_push]
    omega

omit hle in
theorem caps_close (next : State) :
    Caps limit (Exceeds limit) (m.close next) (m.close next) :=
  .inl ⟨rfl, fun _ hn hlong => hm ((exceeds_closed hn).mp hlong)⟩

theorem caps_perform (a : Action) :
    Caps limit (Exceeds limit) (a.perform d ample m) (a.perform d limit m) := by
  cases a with
  | move next => exact .ok hm
  | take c next => exact caps_addThen hle hm c next
  | start c =>
    have hstart : ¬ Exceeds limit { m with numeric := m.numeric || d.quoting == .nonNumeric } := hm
    exact caps_addThen hle hstart c .inField
  | close next => exact caps_close hm next
  | refuse cause => exact .error cause

theorem caps_step (c? : Option Char) :
    Caps limit (Exceeds limit) (m.step d ample c?) (m.step d limit c?) := by
  cases c? with
  | none =>
    rw [step_none, step_none]
    exact caps_perform hle hm _
  | some c =>
    rw [step_some, step_some]
    exact caps_perform hle hm _

theorem caps_resume : Caps limit (Exceeds limit) (m.resume ample) (m.resume limit) := by
  rcases m.resume_eq_or with hsame | ⟨next, hadd⟩
  · rw [hsame, hsame]
    exact .ok hm
  · rw [hadd, hadd]
    exact caps_addThen hle hm '\n' next

theorem caps_settleEscape :
    Caps limit (Exceeds limit) (m.settleEscape d ample) (m.settleEscape d limit) := by
  rcases m.settleEscape_eq_or d with hsame | ⟨-, e, -, hadd⟩
  · rw [hsame, hsame]
    exact .ok hm
  · rw [hadd, hadd]
    exact caps_addThen hle hm e m.state

theorem caps_ending :
    Caps limit (Exceeds limit) (m.ending d ample) (m.ending d limit) :=
  (caps_settleEscape hle hm).bind (fun hm => caps_close hm .startRecord) fun hm h =>
    (exceeds_closed h).mpr hm

theorem caps_feed (text : List Char) :
    Caps limit (Exceeds limit) (m.feed d ample text) (m.feed d limit text) := by
  induction text generalizing m with
  | nil => exact caps_step hle hm none
  | cons c text ih =>
    by_cases hc : c = '\x00'
    · subst hc
      exact .error .nulInLine
    · rw [feed_cons m hc, feed_cons m hc]
      exact (caps_step hle hm (some c)).bind ih fun hm h => hm.feed h

theorem caps_readLine (line : String) :
    Caps limit (Exceeds limit) (m.readLine d ample line) (m.readLine d limit line) := by
  rw [readLine_eq_bind, readLine_eq_bind]
  exact (caps_resume hle hm).bind (fun hm => caps_feed hle hm _) fun hm h => hm.feed h

end Capped

theorem exceeds_iff (hn : n.field = #[]) : n.Exceeds limit ↔ LongRecord limit n.fields.toList := by
  simp [Exceeds, hn]

end Machine

theorem Caps.record {full capped : Except Failure Machine}
    (h : Caps limit (Machine.Exceeds limit) full capped) (hf : ∀ n, full = .ok n → n.field = #[]) :
    Caps limit (LongRecord limit) (full.map fun m => m.fields.toList)
      (capped.map fun m => m.fields.toList) := by
  rcases h with ⟨rfl, hshort⟩ | ⟨rfl, hlong⟩
  · cases capped with
    | error cause => exact .error cause
    | ok n => exact .ok (mt (Machine.exceeds_iff (hf n rfl)).mpr (hshort n rfl))
  · refine .inr ⟨rfl, fun record hrecord => ?_⟩
    cases full with
    | error cause => cases hrecord
    | ok n =>
      cases hrecord
      exact (Machine.exceeds_iff (hf n rfl)).mp (hlong n rfl)

def HitsLimit (answer : Option (Except Failure Record)) : Prop :=
  ∃ cap, answer = some (.error (.fieldLimit cap))

theorem caps_finish (hle : limit ≤ ample) {m : Machine} (hm : ¬ m.Exceeds limit) :
    finish d limit m = finish d ample m ∧
        (∀ record, finish d ample m = some (.ok record) → ¬ LongRecord limit record) ∨
      finish d limit m = some (.error (.fieldLimit limit)) ∧
        ∀ record, finish d ample m = some (.ok record) → LongRecord limit record := by
  cases hopen : m.isOpen with
  | false =>
    rw [finish_of_not_isOpen hopen, finish_of_not_isOpen hopen]
    exact .inl ⟨rfl, fun record h => by cases h⟩
  | true =>
    rw [finish_eq_ending hopen, finish_eq_ending hopen]
    cases d.strict with
    | true => exact .inl ⟨rfl, fun record h => by cases h⟩
    | false =>
      have hcaps := (Machine.caps_ending (d := d) hle hm).record fun n hn =>
        (Machine.of_ending_eq_ok hn).2
      rcases hcaps with ⟨hsame, hshort⟩ | ⟨hfail, hlong⟩
      · exact .inl ⟨congrArg some hsame, fun record h => hshort record (Option.some.inj h)⟩
      · exact .inr ⟨congrArg some hfail, fun record h => hlong record (Option.some.inj h)⟩

namespace Cursor

def within (r : Cursor) (limit : Nat) : Cursor := { r with limit := limit }

def CapsPull (limit : Nat) (full capped : Pull) : Prop :=
  capped = ⟨full.result, full.after.within limit⟩ ∧
      (∀ record, full.result = some (.ok record) → ¬ LongRecord limit record) ∨
    capped.result = some (.error (.fieldLimit limit)) ∧
      ∀ record, full.result = some (.ok record) → LongRecord limit record

theorem longRecord_of_pull {r : Cursor} {m : Machine} (hm : m.Exceeds limit) (ht : m.Tidy) {n : Nat}
    {items : List Item} {record : Record} (h : (r.pull m n items).result = some (.ok record)) :
    LongRecord limit record := by
  fun_induction pull r m n items with
  | case1 m n =>
    obtain ⟨m', hend, rfl⟩ := exists_ending_of_finish h
    exact (Machine.exceeds_iff (Machine.of_ending_eq_ok hend).2).mp (hm.ending hend)
  | case2 m n cause rest => cases h
  | case3 m n line rest cause hline => cases h
  | case4 m n line rest m' hline hs =>
    cases h
    have hfield : m'.field = #[] := ht.readLine hline (by rw [hs]; rfl)
    exact (Machine.exceeds_iff hfield).mp (hm.readLine hline)
  | case5 m n line rest m' hline hs ih => exact ih (hm.readLine hline) (ht.readLine hline) h

theorem caps_pull {r : Cursor} (hle : limit ≤ r.limit) {m : Machine} (hm : ¬ m.Exceeds limit)
    (ht : m.Tidy) (n : Nat) (items : List Item) :
    CapsPull limit (r.pull m n items) ((r.within limit).pull m n items) := by
  induction items generalizing m n with
  | nil =>
    rcases caps_finish hle hm with ⟨hsame, hshort⟩ | ⟨hfail, hlong⟩
    · exact .inl ⟨congrArg (Pull.mk · _) hsame, hshort⟩
    · exact .inr ⟨hfail, hlong⟩
  | cons item items ih =>
    cases item with
    | error cause => exact .inl ⟨rfl, fun record h => by cases h⟩
    | ok line =>
      have hcaps : Caps limit _ (m.readLine r.dialect r.limit line) _ :=
        Machine.caps_readLine hle hm line
      rw [pull_ok_cons, pull_ok_cons]
      change CapsPull limit _ ((r.within limit).afterLine n items (m.readLine r.dialect limit line))
      rcases hcaps with ⟨hsame, hshort⟩ | ⟨hfail, hlong⟩
      · rw [hsame]
        cases hread : m.readLine r.dialect r.limit line with
        | error cause => exact .inl ⟨rfl, fun record h => by cases h⟩
        | ok m' =>
          by_cases hs : m'.state = .startRecord
          · simp only [afterLine, hs, if_true]
            refine .inl ⟨rfl, fun record h hlong => ?_⟩
            cases h
            exact hshort m' hread (.inr hlong)
          · rw [afterLine_of_open hs, afterLine_of_open hs]
            exact ih (hshort m' hread) (ht.readLine hread) (n + 1)
      · -- The field has outgrown the limit; under the larger one the record goes on with it.
        rw [hfail]
        refine .inr ⟨rfl, fun record h => ?_⟩
        cases hread : m.readLine r.dialect r.limit line with
        | error cause =>
          rw [hread] at h
          cases h
        | ok m' =>
          rw [hread] at h
          by_cases hs : m'.state = .startRecord
          · simp only [afterLine, hs, if_true] at h
            cases h
            have hfield : m'.field = #[] := ht.readLine hread (by rw [hs]; rfl)
            exact (Machine.exceeds_iff hfield).mp (hlong m' hread)
          · rw [afterLine_of_open hs] at h
            exact longRecord_of_pull (hlong m' hread) (ht.readLine hread) h

theorem caps_next {r : Cursor} (hle : limit ≤ r.limit) :
    CapsPull limit r.next (r.within limit).next := by
  unfold next
  have hend : (r.within limit).exhausted = r.exhausted := rfl
  rw [hend]
  split
  · exact .inl ⟨rfl, fun record h => by cases h⟩
  · exact caps_pull hle (Machine.not_exceeds_empty limit) Machine.tidy_empty r.lineNum r.source

theorem advance_within {r : Cursor} (hle : limit ≤ r.limit) {k : Nat}
    (h : ∀ j, j < k → ¬ HitsLimit ((r.within limit).answer j)) :
    (r.within limit).advance k = (r.advance k).within limit := by
  induction k generalizing r with
  | zero => rfl
  | succ k ih =>
    have hfirst : ¬ HitsLimit (r.within limit).next.result := h 0 (Nat.succ_pos k)
    rcases caps_next hle with ⟨hsame, -⟩ | ⟨hfail, -⟩
    · have hlater : ∀ j, j < k → ¬ HitsLimit ((r.next.after.within limit).answer j) := by
        intro j hj
        have hj' := h (j + 1) (Nat.succ_lt_succ hj)
        rwa [answer_succ, hsame] at hj'
      simp only [advance, hsame]
      exact ih (by rwa [(next_configuration r).2]) hlater
    · exact absurd ⟨limit, hfail⟩ hfirst

end Cursor

theorem Action.refuse_ne_fieldLimit {c : Char} {s : State} {cause : Failure}
    (h : Acts d c s (.refuse cause)) (cap : Nat) : cause ≠ .fieldLimit cap := by
  cases h <;> exact nofun

namespace Machine

variable {m : Machine} {size : Nat}

/-- The open field has at most `size` characters, and a failure is not for the limit. -/
def Roomy (size : Nat) : Except Failure Machine → Prop
  | .ok m => m.field.size ≤ size
  | .error cause => ∀ cap, cause ≠ .fieldLimit cap

theorem Roomy.mono {x : Except Failure Machine} {more : Nat} (h : Roomy size x)
    (hle : size ≤ more) : Roomy more x := by
  cases x with
  | error cause => exact h
  | ok m => exact Nat.le_trans h hle

theorem Roomy.bind {x : Except Failure Machine} {f : Machine → Except Failure Machine} {more : Nat}
    (h : Roomy size x) (hf : ∀ {m}, m.field.size ≤ size → Roomy more (f m)) :
    Roomy more (x.bind f) := by
  cases x with
  | error cause => exact h
  | ok m => exact hf h

theorem roomy_close (m : Machine) (next : State) : Roomy size (m.close next) := by
  rw [close_eq]
  split
  · intro cap
    simp
  · exact Nat.zero_le size

section

variable (hm : m.field.size ≤ size) (hlt : size < limit)
include hm hlt

theorem roomy_addThen (c : Char) (next : State) : Roomy (size + 1) (m.addThen limit c next) := by
  rw [addThen_eq, if_pos (Nat.lt_of_le_of_lt hm hlt)]
  simp only [Roomy, Array.size_push]
  omega

theorem roomy_step (c? : Option Char) : Roomy (size + 1) (m.step d limit c?) := by
  cases c? with
  | none =>
    rw [step_none]
    cases m.state with
    | startField | inField | quoteInQuoted => exact roomy_close m .startRecord
    | startRecord | afterBreak | escaped | inQuoted | escapedInQuoted | afterEscapedBreak =>
      exact Nat.le_succ_of_le hm
  | some c =>
    rw [step_some]
    cases ha : Action.ofChar d c m.state with
    | move next => exact Nat.le_succ_of_le hm
    | take c next => exact roomy_addThen hm hlt c next
    | start c =>
      apply roomy_addThen (m := { m with numeric := m.numeric || d.quoting == .nonNumeric })
      · exact hm
      · exact hlt
    | close next => exact roomy_close m next
    | refuse cause => exact Action.refuse_ne_fieldLimit (ha ▸ Action.acts_ofChar d c m.state)

theorem roomy_resume : Roomy (size + 1) (m.resume limit) := by
  rcases m.resume_eq_or with hsame | ⟨next, hadd⟩
  · rw [hsame]
    exact Nat.le_succ_of_le hm
  · rw [hadd]
    exact roomy_addThen hm hlt '\n' next

theorem roomy_settleEscape : Roomy (size + 1) (m.settleEscape d limit) := by
  rcases m.settleEscape_eq_or d with hsame | ⟨-, e, -, hadd⟩
  · rw [hsame]
    exact Nat.le_succ_of_le hm
  · rw [hadd]
    exact roomy_addThen hm hlt e m.state

theorem roomy_ending : Roomy (size + 1) (m.ending d limit) :=
  (roomy_settleEscape hm hlt).bind fun _ => roomy_close _ .startRecord

end

theorem roomy_feed {text : List Char} (hm : m.field.size ≤ size)
    (hlt : size + text.length < limit) :
    Roomy (size + text.length + 1) (m.feed d limit text) := by
  induction text generalizing m size with
  | nil => exact roomy_step hm hlt none
  | cons c text ih =>
    rw [List.length_cons] at hlt ⊢
    by_cases hc : c = '\x00'
    · subst hc
      intro cap
      simp
    · rw [feed_cons m hc]
      apply (roomy_step hm (by omega) (some c)).bind
      intro m' hm'
      exact (ih hm' (by omega)).mono (by omega)

theorem roomy_readLine {line : String} (hm : m.field.size ≤ size)
    (hlt : size + line.length + 1 < limit) :
    Roomy (size + line.length + 2) (m.readLine d limit line) := by
  rw [readLine_eq_bind]
  apply (roomy_resume hm (by omega)).bind
  intro m' hm'
  rw [← String.length_toList] at hlt ⊢
  exact (roomy_feed hm' (by omega)).mono (by omega)

end Machine

/-- A number of characters that no field of a source exceeds, line breaks that are left out and the
escape at the end included. -/
def room : List Item → Nat
  | [] => 1
  | .error _ :: items => room items
  | .ok line :: items => line.length + 2 + room items

theorem room_le_of_suffix {items source : List Item} (h : items <:+ source) :
    room items ≤ room source := by
  obtain ⟨taken, rfl⟩ := h
  induction taken with
  | nil => exact Nat.le_refl _
  | cons item taken ih =>
    cases item with
    | error cause => exact ih
    | ok line => exact Nat.le_add_left_of_le ih

theorem finish_ne_fieldLimit {m : Machine} {size : Nat} (hm : m.field.size ≤ size)
    (hroom : size < limit) (cap : Nat) : finish d limit m ≠ some (.error (.fieldLimit cap)) := by
  cases hopen : m.isOpen with
  | false =>
    rw [finish_of_not_isOpen hopen]
    exact nofun
  | true =>
    rw [finish_eq_ending hopen]
    cases d.strict with
    | true => simp
    | false =>
      have hroomy := Machine.roomy_ending (d := d) hm hroom
      intro h
      cases hend : m.ending d limit with
      | error cause =>
        rw [hend] at h hroomy
        cases h
        exact hroomy cap rfl
      | ok m' =>
        rw [hend] at h
        cases h

theorem not_longRecord {record : Record} :
    ¬ LongRecord limit record ↔ ∀ s ∈ record, s.length ≤ limit := by
  simp [LongRecord]

namespace Cursor

/-- With room for all characters to come, the limit is met only if the source itself says so. -/
theorem mem_of_pull_eq_fieldLimit {r : Cursor} {m : Machine} {size n cap : Nat} {items : List Item}
    (hm : m.field.size ≤ size) (hroom : size + room items ≤ r.limit)
    (h : (r.pull m n items).result = some (.error (.fieldLimit cap))) :
    .error (.fieldLimit cap) ∈ items := by
  induction items generalizing m size n with
  | nil => exact absurd h (finish_ne_fieldLimit hm hroom cap)
  | cons item items ih =>
    cases item with
    | error cause =>
      cases h
      exact List.mem_cons_self
    | ok line =>
      have hrest : 1 ≤ room items := room_le_of_suffix List.nil_suffix
      rw [room] at hroom
      have hroomy := Machine.roomy_readLine (d := r.dialect) (m := m) hm
        (show size + line.length + 1 < r.limit by omega)
      rw [pull_ok_cons] at h
      cases hread : m.readLine r.dialect r.limit line with
      | error cause =>
        rw [hread] at h hroomy
        cases h
        exact absurd rfl (hroomy cap)
      | ok m' =>
        rw [hread] at h hroomy
        by_cases hs : m'.state = .startRecord
        · simp [afterLine, hs] at h
        · rw [afterLine_of_open hs] at h
          exact List.mem_cons_of_mem _ (ih hroomy (by omega) h)

theorem mem_of_answer_eq_fieldLimit {source : List Item} (hroom : room source ≤ limit) {k cap : Nat}
    (h : (fresh source d limit).answer k = some (.error (.fieldLimit cap))) :
    .error (.fieldLimit cap) ∈ source := by
  obtain ⟨r, n, items, -, hlimit, hsuffix, hpull⟩ := exists_pull_of_answer h
  apply hsuffix.mem
  apply mem_of_pull_eq_fieldLimit (Nat.zero_le 0) _ hpull
  rw [hlimit, Nat.zero_add]
  exact Nat.le_trans (room_le_of_suffix hsuffix) hroom

/-- A record that comes out under a limit comes out under every larger one. -/
theorem Serves.next_within {r : Cursor} (h : r.Serves d limit) (hle : limit ≤ ample)
    {record : Record} (hr : r.next.result = some (.ok record)) :
    ¬ LongRecord limit record ∧ (fresh r.source d ample).answer 0 = some (.ok record) := by
  have hback : (r.within ample).within limit = r := by
    rw [← h.limit]
    rfl
  have hserves : (r.within ample).Serves d ample := ⟨h.dialect, rfl, h.settled⟩
  rcases caps_next (r := r.within ample) hle with ⟨hsame, hshort⟩ | ⟨hfail, -⟩
  · rw [hback] at hsame
    rw [hsame] at hr
    exact ⟨hshort record hr, (hserves.follows_fresh.answers 0).symm.trans hr⟩
  · rw [hback, hr] at hfail
    cases hfail

end Cursor

/-- The limit is exact. Compared with a reader that has room for longer fields, a reader gives the
same answers up to the first record with a field that is too long, and fails there. Every record
that it answers, also behind such failures, is within the limit and is what the larger limit gives
from the same place on, so that no field is cut short. For each source some limit is as good as
none: from it on, no answer fails for a limit unless the source itself reports that. -/
theorem field_limit_is_exact {source : List Item} {r free : Reader}
    (hr : open? source d limit = .ok r) (hfree : open? source d ample = .ok free)
    (hle : limit ≤ ample) :
    (∀ k record, (∀ j, j < k → r.answer j = free.answer j ∧ ¬ HitsLimit (r.answer j)) →
      free.answer k = some (.ok record) →
        r.answer k = some (if ∀ s ∈ record, s.length ≤ limit then .ok record
          else .error (.fieldLimit limit))) ∧
    (∀ k record, r.answer k = some (.ok record) → (∀ s ∈ record, s.length ≤ limit) ∧
      ∃ new, open? (r.advance k).source d ample = .ok new ∧ new.answer 0 = some (.ok record)) ∧
    ∃ enough, ∀ large wide, enough ≤ large → open? source d large = .ok wide →
      ∀ k cap, wide.answer k = some (.error (.fieldLimit cap)) →
        .error (.fieldLimit cap) ∈ source := by
  obtain ⟨hvalid, rfl⟩ := open?_eq_ok.mp hr
  obtain ⟨-, rfl⟩ := open?_eq_ok.mp hfree
  refine ⟨?_, ?_, room source, ?_⟩
  · intro k record hbefore hk
    simp only [answer_eq, toCursor_fresh] at hbefore hk ⊢
    have hlimit : ((Cursor.fresh source d ample).advance k).limit = ample :=
      ((Cursor.serves_fresh source d ample).advance k).limit
    have hadvance : (Cursor.fresh source d limit).advance k =
        ((Cursor.fresh source d ample).advance k).within limit :=
      Cursor.advance_within (r := .fresh source d ample) hle fun j hj => (hbefore j hj).2
    rw [Cursor.answer, hadvance]
    rcases Cursor.caps_next (hlimit ▸ hle) with ⟨hsame, hshort⟩ | ⟨hfail, hlong⟩
    · rw [hsame, if_pos (not_longRecord.mp (hshort record hk))]
      exact hk
    · rw [hfail, if_neg (mt not_longRecord.mpr (not_not_intro (hlong record hk)))]
  · intro k record hk
    rw [answer_eq] at hk
    have hserves := (Cursor.serves_fresh source d limit).advance k
    obtain ⟨hshort, hanswer⟩ := hserves.next_within hle hk
    refine ⟨not_longRecord.mp hshort, _, open?_eq_ok.mpr ⟨hvalid, rfl⟩, ?_⟩
    rw [answer_eq, toCursor_advance]
    exact hanswer
  · intro large wide henough hwide k cap h
    obtain ⟨-, rfl⟩ := open?_eq_ok.mp hwide
    rw [answer_eq] at h
    exact Cursor.mem_of_answer_eq_fieldLimit henough h

/-- Three characters of five bytes are within a limit of three. The next record has four characters,
and the reader goes on behind it. -/
theorem field_limit_is_exact_accents :
    let source : List Item := [.ok "x,\"cé", .ok "ö\"\n", .ok "abcd\n", .ok "y\n"]
    let r := fresh source Dialect.excel 3
    let free := fresh source Dialect.excel 9
    free.answer 0 = some (.ok ["x", "céö"]) ∧ free.answer 1 = some (.ok ["abcd"]) ∧
      r.answer 0 = some (.ok ["x", "céö"]) ∧ r.answer 1 = some (.error (.fieldLimit 3)) ∧
      ∃ new, open? [.ok "y\n"] Dialect.excel 9 = .ok new ∧ new.answer 0 = some (.ok ["y"]) := by
  intro source r free
  have hr : open? source Dialect.excel 3 = .ok r := rfl
  have hfree : open? source Dialect.excel 9 = .ok free := rfl
  obtain ⟨hexact, hkept, -⟩ := field_limit_is_exact hr hfree (by decide)
  have hfirst : free.answer 0 = some (.ok ["x", "céö"]) := by
    subst free source
    rfl
  have hsecond : free.answer 1 = some (.ok ["abcd"]) := by
    subst free source
    rfl
  have hthird : r.answer 2 = some (.ok ["y"]) := by
    subst r source
    rfl
  have hshort : r.answer 0 = some (.ok ["x", "céö"]) := by
    rw [hexact 0 _ (fun j hj => absurd hj (Nat.not_lt_zero j)) hfirst, if_pos (by decide)]
  have hlong : r.answer 1 = some (.error (.fieldLimit 3)) := by
    rw [hexact 1 _ _ hsecond, if_neg (by decide)]
    intro j hj
    obtain rfl : j = 0 := by omega
    rw [hshort, hfirst]
    exact ⟨rfl, by rintro ⟨cap, hcap⟩; cases hcap⟩
  exact ⟨hfirst, hsecond, hshort, hlong, (hkept 2 ["y"] hthird).2⟩

end Tabular.Reader
