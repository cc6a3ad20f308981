import Mathlib.Data.List.Basic
import Tabular.Session

/-! # The registry of a session follows its history

Calls put dialects under names and remove names. The registry is that of a history: a name has the
dialect of the last call that settled it, and the names stand in the order of the calls that brought
them in. So a name that is given another dialect keeps its place, and one that comes back comes
last.
-/
namespace Tabular.Session

inductive Call where
  | register (name : String) (dialect : Dialect)
  | unregister (name : String)
  deriving DecidableEq

def serve (s : Session) : Call → Reply Unit
  | .register name dialect => s.register name dialect
  | .unregister name => s.unregister name

def run (s : Session) (calls : List Call) : Session :=
  calls.foldl (fun s call => (s.serve call).after) s

/-- The dialect that a name has behind a call, or that it has none, unless the call leaves the name
alone. -/
def Call.settles (name : String) : Call → Option (Option Dialect)
  | .register other dialect =>
    if other = name ∧ dialect.validate.isOk then some (some dialect) else none
  | .unregister other => if other = name then some none else none

def held (history : List Call) (name : String) : Option Dialect :=
  (history.reverse.findSome? (Call.settles name)).join

def Call.bringsIn (before : List Call) : Call → Option String
  | .register name dialect =>
    if dialect.validate.isOk ∧ held before name = none then some name else none
  | .unregister _ => none

/-- The name that call number `k` brought in, unless it was removed later. -/
def arrival? (history : List Call) (k : Nat) : Option String :=
  (history[k]?.bind (Call.bringsIn (history.take k))).filter fun name =>
    .unregister name ∉ history.drop (k + 1)

def arrivals (history : List Call) : List String :=
  (List.range history.length).filterMap (arrival? history)

def lookup (history : List Call) (name : String) : Except Failure Dialect :=
  match held history name with
  | some dialect => .ok dialect
  | none => .error (.unknownDialect name)

variable {history : List Call} {name : String} {dialect : Dialect}

theorem held_append (history : List Call) (call : Call) (name : String) :
    held (history ++ [call]) name = (call.settles name).getD (held history name) := by
  simp only [held, List.reverse_append, List.reverse_singleton, List.singleton_append,
    List.findSome?_cons]
  cases call.settles name <;> rfl

theorem arrival?_append_of_lt {k : Nat} (hk : k < history.length) (call : Call) :
    arrival? (history ++ [call]) k =
      (arrival? history k).filter fun name => call ≠ .unregister name := by
  unfold arrival?
  rw [List.getElem?_append_left hk, List.take_append_of_le_length (Nat.le_of_lt hk),
    List.drop_append_of_le_length hk, Option.filter_filter]
  congr 1
  funext name
  simp [eq_comm, Bool.and_comm]

theorem arrival?_append_length (history : List Call) (call : Call) :
    arrival? (history ++ [call]) history.length = call.bringsIn history := by
  unfold arrival?
  cases hname : call.bringsIn history <;> simp [hname]

/-- A name that is removed leaves its place, and one that is brought in comes last. -/
theorem arrivals_append (history : List Call) (call : Call) :
    arrivals (history ++ [call]) =
      (arrivals history).filter (fun name => call ≠ .unregister name) ++
        (call.bringsIn history).toList := by
  have hearlier : (List.range history.length).filterMap (arrival? (history ++ [call])) =
      (arrivals history).filter fun name => call ≠ .unregister name := by
    rw [arrivals, List.filter_filterMap]
    refine List.filterMap_congr fun k hk => ?_
    exact arrival?_append_of_lt (List.mem_range.mp hk) call
  rw [arrivals, List.length_append, List.length_singleton, List.range_succ, List.filterMap_append,
    hearlier]
  congr 1
  rw [List.filterMap_cons, arrival?_append_length]
  cases call.bringsIn history <;> rfl

theorem isOk_validate_iff : dialect.validate.isOk = true ↔ dialect.validate = .ok () := by
  cases dialect.validate <;> simp [Except.isOk, Except.toBool]

theorem validate_of_held (h : held history name = some dialect) : dialect.validate = .ok () := by
  obtain ⟨call, -, hcall⟩ := List.exists_of_findSome?_eq_some (Option.join_eq_some_iff.mp h)
  cases call with
  | register other given =>
    simp only [Call.settles] at hcall
    split at hcall
    next hgiven =>
      cases hcall
      exact isOk_validate_iff.mp hgiven.2
    next => cases hcall
  | unregister other =>
    simp only [Call.settles] at hcall
    split at hcall <;> cases hcall

variable {s : Session} {cause : Failure}

theorem register_of_ok (h : dialect.validate = .ok ()) (name : String) :
    s.register name dialect =
      { result := .ok ()
        after := { s with registry := ⟨s.registry.entries.insert name dialect⟩ }
        events := [.registered name] } := by
  simp only [register, Registry.register, h, Outcome.done]

theorem register_of_error (h : dialect.validate = .error cause) (name : String) :
    s.register name dialect = { result := .error cause, after := s } := by
  simp only [register, Registry.register, h, Outcome.fail]

theorem unregister_of_some (h : s.registry.entries.get? name = some dialect) :
    s.unregister name =
      { result := .ok ()
        after := { s with registry := ⟨s.registry.entries.erase name⟩ }
        events := [.unregistered name] } := by
  simp only [unregister, Registry.unregister, h, Outcome.done]

theorem unregister_of_none (h : s.registry.entries.get? name = none) :
    s.unregister name = { result := .error (.unknownDialect name), after := s } := by
  simp only [unregister, Registry.unregister, h, Outcome.fail]

theorem registry_unregister (s : Session) (name : String) :
    (s.unregister name).after.registry = ⟨s.registry.entries.erase name⟩ := by
  cases h : s.registry.entries.get? name with
  | some dialect => rw [unregister_of_some h]
  | none =>
    rw [unregister_of_none h, OrderedMap.erase_of_not_mem (OrderedMap.get?_eq_none_iff.mp h)]

structure Follows (history : List Call) (r : Registry) : Prop where
  names : r.names = arrivals history
  nodup : r.names.Nodup
  get : ∀ name, r.entries.get? name = held history name

namespace Follows

theorem mem_names_iff {r : Registry} (h : Follows history r) (name : String) :
    name ∈ r.names ↔ (held history name).isSome = true := by
  rw [← h.get, ← Decidable.not_iff_not, Option.not_isSome_iff_eq_none]
  exact OrderedMap.get?_eq_none_iff.symm

theorem of_settles_none {r : Registry} (h : Follows history r) {call : Call}
    (hsettles : ∀ name, call.settles name = none) (hbrings : call.bringsIn history = none) :
    Follows (history ++ [call]) r := by
  have hkeeps : ∀ name, call ≠ .unregister name := by
    rintro name rfl
    have := hsettles name
    simp [Call.settles] at this
  refine ⟨?_, h.nodup, fun name => ?_⟩
  · rw [arrivals_append, hbrings, Option.toList_none, List.append_nil, h.names]
    exact (List.filter_eq_self.mpr fun name _ => by simpa using hkeeps name).symm
  · rw [held_append, hsettles, Option.getD_none, h.get]

theorem register (h : Follows history s.registry) (name : String) (dialect : Dialect) :
    Follows (history ++ [.register name dialect]) (s.register name dialect).after.registry := by
  cases hvalid : dialect.validate with
  | error cause =>
    rw [register_of_error hvalid]
    refine h.of_settles_none (fun other => ?_) ?_
    · simp [Call.settles, hvalid, Except.isOk, Except.toBool]
    · simp [Call.bringsIn, hvalid, Except.isOk, Except.toBool]
  | ok =>
    have hok : dialect.validate.isOk = true := isOk_validate_iff.mpr hvalid
    rw [register_of_ok hvalid]
    refine ⟨?_, OrderedMap.nodup_keys_insert h.nodup name dialect, fun other => ?_⟩
    · have hkept : (arrivals history).filter
          (fun other => Call.register name dialect ≠ .unregister other) = s.registry.names := by
        rw [h.names]
        exact List.filter_eq_self.mpr fun other _ => by simp
      have hmem : name ∈ s.registry.entries.keys ↔ _ := h.mem_names_iff name
      rw [arrivals_append, hkept]
      refine (OrderedMap.keys_insert _ name dialect).trans ?_
      cases hheld : held history name with
      | none =>
        rw [if_neg (by simpa [hheld] using hmem)]
        simp [Call.bringsIn, hok, hheld, Registry.names]
      | some old =>
        rw [if_pos (by simpa [hheld] using hmem)]
        simp [Call.bringsIn, hheld, Registry.names]
    · rw [held_append]
      by_cases hother : other = name
      · subst hother
        simp [Call.settles, hok, OrderedMap.get?_insert_self]
      · simp [Call.settles, Ne.symm hother, OrderedMap.get?_insert_of_ne _ dialect hother, h.get]

theorem unregister (h : Follows history s.registry) (name : String) :
    Follows (history ++ [.unregister name]) (s.unregister name).after.registry := by
  have hnames :
      (s.unregister name).after.registry.names = s.registry.names.filter (· ≠ name) := by
    rw [registry_unregister]
    exact OrderedMap.keys_erase s.registry.entries name
  refine ⟨?_, ?_, fun other => ?_⟩
  · rw [hnames, h.names, arrivals_append]
    simp [Call.bringsIn, eq_comm]
  · rw [hnames]
    exact h.nodup.filter _
  · rw [registry_unregister, held_append]
    by_cases hother : other = name
    · subst hother
      simp [Call.settles, OrderedMap.get?_erase_self]
    · simp [Call.settles, Ne.symm hother, OrderedMap.get?_erase_of_ne _ hother, h.get]

theorem run (h : Follows history s.registry) (calls : List Call) :
    Follows (history ++ calls) (s.run calls).registry := by
  induction calls generalizing history s with
  | nil => simpa [Session.run] using h
  | cons call calls ih =>
    have hserved : Follows (history ++ [call]) (s.serve call).after.registry := by
      cases call with
      | register name dialect => exact h.register name dialect
      | unregister name => exact h.unregister name
    simpa [Session.run] using ih hserved

theorem get_eq {r : Registry} (h : Follows history r) (name : String) :
    r.get name = lookup history name := by
  have hget := h.get name
  cases hheld : held history name <;> simp [Registry.get, lookup, hget, hheld]

end Follows

def standardCalls : List Call := Registry.standardDialects.map fun e => .register e.1 e.2

theorem follows_standard : Follows standardCalls Registry.standard := by
  have hempty : Follows [] ({ registry := {} } : Session).registry :=
    ⟨rfl, List.nodup_nil, fun _ => rfl⟩
  exact hempty.run standardCalls

/-- A name that a history knows opens a reader, since its dialect has no faults. -/
theorem Follows.openReader (h : Follows history s.registry) (source : List Item) (name : String)
    (own : Option Nat) :
    s.openReader source (.named name) own = (lookup history name).map fun dialect =>
      { source := source, dialect := dialect, limit := own.getD s.fieldLimit } := by
  simp only [Session.openReader, Session.dialect, h.get_eq, lookup]
  cases hheld : held history name with
  | none => rfl
  | some dialect => simp only [Reader.open?, validate_of_held hheld, Except.map]

theorem Follows.openWriter (h : Follows history s.registry) (sink : Sink) (name : String) :
    s.openWriter sink (.named name) = (lookup history name).map fun dialect =>
      { dialect := dialect, sink := sink } := by
  simp only [Session.openWriter, Session.dialect, h.get_eq, lookup]
  cases hheld : held history name with
  | none => rfl
  | some dialect => simp only [Writer.open?, validate_of_held hheld, Except.map]

theorem serve_of_error {call : Call} (h : (s.serve call).result = .error cause) :
    (s.serve call).after = s := by
  cases call with
  | register name dialect =>
    simp only [serve] at h ⊢
    cases hvalid : dialect.validate with
    | ok =>
      rw [register_of_ok hvalid] at h
      cases h
    | error reason => rw [register_of_error hvalid]
  | unregister name =>
    simp only [serve] at h ⊢
    cases hheld : s.registry.entries.get? name with
    | some dialect =>
      rw [unregister_of_some hheld] at h
      cases h
    | none => rw [unregister_of_none hheld]

theorem register_result (s : Session) (name : String) (dialect : Dialect) :
    (s.register name dialect).result = dialect.validate := by
  cases hvalid : dialect.validate with
  | ok => rw [register_of_ok hvalid]
  | error cause => rw [register_of_error hvalid]

theorem unregister_result (s : Session) (name : String) :
    (s.unregister name).result =
      if name ∈ s.registry.names then .ok () else .error (.unknownDialect name) := by
  cases hheld : s.registry.entries.get? name with
  | some dialect =>
    have hmem : name ∈ s.registry.names := by
      by_contra hout
      rw [OrderedMap.get?_eq_none_iff.mpr hout] at hheld
      cases hheld
    rw [unregister_of_some hheld, if_pos hmem]
  | none =>
    have hout : name ∉ s.registry.names := OrderedMap.get?_eq_none_iff.mp hheld
    rw [unregister_of_none hheld, if_neg hout]

theorem names_register_of_mem (h : name ∈ s.registry.names) (dialect : Dialect) :
    (s.register name dialect).after.registry.names = s.registry.names := by
  cases hvalid : dialect.validate with
  | error cause => rw [register_of_error hvalid]
  | ok =>
    rw [register_of_ok hvalid]
    exact (OrderedMap.keys_insert _ name dialect).trans (if_pos h)

/-- The names of a session stand in the order of their arrival, each once, and are those that have a
dialect. A name gives the dialect that its history has left, which is without faults, so that
readers and writers open by every name but an unknown one. A name that is there keeps its place
under a new dialect, calls fail for faults and for unknown names only, and those that fail change
nothing. -/
theorem registry_follows_history (limit : Nat) (calls : List Call) :
    let history := standardCalls ++ calls
    let s := run { fieldLimit := limit } calls
    (s.registry.names = arrivals history ∧ s.registry.names.Nodup ∧
        ∀ name, name ∈ s.registry.names ↔ (held history name).isSome = true) ∧
      (∀ name, s.registry.get name = lookup history name) ∧
      (∀ name dialect, s.registry.get name = .ok dialect → dialect.validate = .ok ()) ∧
      (∀ name source own, s.openReader source (.named name) own =
        (lookup history name).map fun dialect =>
          { source := source, dialect := dialect, limit := own.getD s.fieldLimit }) ∧
      (∀ name sink, s.openWriter sink (.named name) =
        (lookup history name).map fun dialect => { dialect := dialect, sink := sink }) ∧
      (∀ name dialect, name ∈ s.registry.names →
        (s.register name dialect).after.registry.names = s.registry.names) ∧
      (∀ name dialect, (s.register name dialect).result = dialect.validate) ∧
      (∀ name, (s.unregister name).result =
        if name ∈ s.registry.names then .ok () else .error (.unknownDialect name)) ∧
      ∀ call cause, (s.serve call).result = .error cause → (s.serve call).after = s := by
  intro history s
  have h : Follows history s.registry :=
    Follows.run (s := { fieldLimit := limit }) follows_standard calls
  refine ⟨⟨h.names, h.nodup, h.mem_names_iff⟩, h.get_eq, ?_,
    fun name source own => h.openReader source name own, fun name sink => h.openWriter sink name,
    fun name dialect hmem => names_register_of_mem hmem dialect, register_result s,
    unregister_result s, fun call cause => serve_of_error⟩
  intro name dialect hget
  rw [h.get_eq, lookup] at hget
  cases hheld : held history name with
  | none => simp [hheld] at hget
  | some given =>
    simp only [hheld, Except.ok.injEq] at hget
    exact hget ▸ validate_of_held hheld

/-- One name changes its dialect in its place, one is removed and comes back, three calls fail. -/
theorem registry_follows_history_renewed :
    let broken : Dialect := { delimiter := '\n' }
    let calls : List Call := [.register "wide" .excelTab, .register "excel" .unix,
      .unregister "unix", .unregister "unix", .register "excel" broken, .register "new" broken,
      .register "unix" .excel]
    let s := run {} calls
    s.registry.names = ["excel", "excel-tab", "wide", "unix"] ∧
      s.registry.get "excel" = .ok .unix ∧
      s.registry.get "new" = .error (.unknownDialect "new") ∧
      (s.register "wide" broken).after.registry.names = s.registry.names := by
  intro broken calls s
  obtain ⟨⟨hnames, -, -⟩, hget, -, -, -, hplace, -⟩ :=
    registry_follows_history Reader.defaultLimit calls
  have hlist : s.registry.names = ["excel", "excel-tab", "wide", "unix"] := by
    refine hnames.trans ?_
    subst s calls broken
    rfl
  refine ⟨hlist, (hget "excel").trans ?_, (hget "new").trans ?_, ?_⟩
  · subst s calls broken
    rfl
  · subst s calls broken
    rfl
  · apply hplace
    rw [hlist]
    decide

end Tabular.Session
