import Mathlib.Logic.Function.Basic
import Tabular.Bytes

/-! # The remembered hash does not show

Byte strings stand under names, and calls make, copy, change, hash and compare them. A byte string
remembers no other hash than that of its contents, whatever was called before. So the answers are
those of byte strings that remember nothing, and further calls for a hash in between change none of
them.
-/
namespace Tabular.Bytes

universe u

variable {ι : Type u} {mix : List UInt8 → UInt64} {a b : Bytes}

/-- What is remembered is the hash of the contents, if anything is. -/
def Coherent (mix : List UInt8 → UInt64) (b : Bytes) : Prop :=
  b.memo = hashUnknown ∨ b.memo = hashOf mix b.data

def forget (b : Bytes) : Bytes := { b with memo := hashUnknown }

theorem coherent_forget (mix : List UInt8 → UInt64) (b : Bytes) : b.forget.Coherent mix := .inl rfl

theorem forget_eq_forget_iff : a.forget = b.forget ↔ a.data = b.data ∧ a.frozen = b.frozen := by
  simp [forget]

theorem hashOf_ne_hashUnknown (mix : List UInt8 → UInt64) (data : List UInt8) :
    hashOf mix data ≠ hashUnknown := by
  intro h
  have hle : (hashOf mix data).toNat ≤ hashMask.toNat := by
    rw [hashOf, UInt64.toNat_and]
    exact Nat.and_le_right
  rw [h] at hle
  exact absurd hle (by decide)

theorem Coherent.hashWith_fst (h : b.Coherent mix) : (b.hashWith mix).1 = hashOf mix b.data := by
  unfold hashWith
  by_cases hmemo : b.memo = hashUnknown
  · simp [hmemo]
  · simpa [hmemo] using h.resolve_left hmemo

theorem Coherent.hashWith_snd (h : b.Coherent mix) : (b.hashWith mix).2.Coherent mix := by
  unfold hashWith
  by_cases hmemo : b.memo = hashUnknown
  · simp [hmemo, Coherent]
  · simpa [hmemo] using h

theorem forget_hashWith_snd (mix : List UInt8 → UInt64) (b : Bytes) :
    (b.hashWith mix).2.forget = b.forget := by
  unfold hashWith
  by_cases hmemo : b.memo = hashUnknown <;> simp [hmemo, forget]

/-- Equal contents have equal hashes, so the remembered ones cannot rule them out. -/
theorem Coherent.beq_iff (ha : a.Coherent mix) (hb : b.Coherent mix) :
    (a == b) = true ↔ a.data = b.data := by
  have hdiffer : a.data = b.data → memosDiffer a b = false := by
    intro hdata
    by_cases hunknown : a.memo = hashUnknown ∨ b.memo = hashUnknown
    · rcases hunknown with h | h <;> simp [memosDiffer, h]
    · have hsame : a.memo = b.memo := by
        rw [ha.resolve_left fun h => hunknown (.inl h), hb.resolve_left fun h => hunknown (.inr h),
          hdata]
      simp [memosDiffer, hsame]
  show (a.data.length == b.data.length && !memosDiffer a b && a.data == b.data) = true ↔ _
  constructor
  · intro h
    simp only [Bool.and_eq_true, beq_iff_eq] at h
    exact h.2
  · intro hdata
    simp [hdata, hdiffer hdata]

theorem Coherent.beq_forget (ha : a.Coherent mix) (hb : b.Coherent mix) :
    (a == b) = (a.forget == b.forget) := by
  rw [Bool.eq_iff_iff, ha.beq_iff hb, (coherent_forget mix a).beq_iff (coherent_forget mix b)]
  rfl

theorem coherent_of_slice {part : Slice} (h : a.slice part = .ok b) : b.Coherent mix := by
  unfold Bytes.slice at h
  split at h
  · cases h
    exact .inl rfl
  · cases h

theorem coherent_concatInPlace (mix : List UInt8 → UInt64) (a b : Bytes) :
    (a.concatInPlace b).Coherent mix := by
  unfold concatInPlace
  split <;> exact .inl rfl

theorem forget_concatInPlace (a b : Bytes) :
    (a.concatInPlace b).forget = (a.forget.concatInPlace b.forget).forget := by
  unfold concatInPlace forget
  dsimp only
  split <;> rfl

theorem Coherent.extend (h : b.Coherent mix) (bytes : List UInt8) :
    (b.extend bytes).after.Coherent mix := by
  unfold Bytes.extend
  split
  · exact h
  · exact .inl rfl

theorem extend_forget (b : Bytes) (bytes : List UInt8) :
    (b.extend bytes).result = (b.forget.extend bytes).result ∧
      (b.extend bytes).after.forget = (b.forget.extend bytes).after.forget := by
  unfold Bytes.extend forget
  dsimp only
  split <;> exact ⟨rfl, rfl⟩

inductive Query where
  | contents
  | frozen
  | get (i : Int)
  | find (needle : List UInt8) (start : Nat)
  | escape
  | literal
  | display

inductive Call (ι : Type u) where
  | make (x : ι) (data : List UInt8) (frozen : Bool)
  | ofString (x : ι) (text : String)
  | copyAs (x y : ι) (frozen : Bool)
  | clone (x y : ι)
  | slice (x y : ι) (part : Slice)
  | concat (x y z : ι)
  | concatInPlace (x y : ι)
  | push (x : ι) (byte : UInt8)
  | extend (x : ι) (bytes : List UInt8)
  | hash (x : ι)
  | equal (x y : ι)
  | compare (x y : ι)
  | ask (x : ι) (query : Query)

inductive Reply where
  | done
  | failed (cause : Failure)
  | hash (value : UInt64)
  | truth (value : Bool)
  | order (value : Ordering)
  | bytes (data : List UInt8)
  | byte (value : Except Failure UInt8)
  | offset (value : Option Nat)
  | text (value : String)

def Reply.ofResult : Except Failure Unit → Reply
  | .ok () => .done
  | .error cause => .failed cause

def answer (b : Bytes) : Query → Reply
  | .contents => .bytes b.data
  | .frozen => .truth b.frozen
  | .get i => .byte (b.get i)
  | .find needle start => .offset (b.find needle start)
  | .escape => .text (String.ofList b.escape)
  | .literal => .text (Tabular.literal b)
  | .display => .text b.display

variable [DecidableEq ι]

open Function (update)

def serve (mix : List UInt8 → UInt64) (s : ι → Bytes) : Call ι → Reply × (ι → Bytes)
  | .make x data frozen => (.done, update s x { data := data, frozen := frozen })
  | .ofString x text => (.done, update s x (.ofString text))
  | .copyAs x y frozen => (.done, update s x ((s y).copyAs frozen))
  | .clone x y => (.done, update s x (s y))
  | .slice x y part =>
    match (s y).slice part with
    | .ok b => (.done, update s x b)
    | .error cause => (.failed cause, s)
  | .concat x y z => (.done, update s x ((s y).concat (s z)))
  | .concatInPlace x y => (.done, update s x ((s x).concatInPlace (s y)))
  | .push x byte =>
    (.ofResult ((s x).push byte).result, update s x ((s x).push byte).after)
  | .extend x bytes =>
    (.ofResult ((s x).extend bytes).result, update s x ((s x).extend bytes).after)
  | .hash x => (.hash ((s x).hashWith mix).1, update s x ((s x).hashWith mix).2)
  | .equal x y => (.truth (s x == s y), s)
  | .compare x y => (.order (NaturalOrd.order (s x) (s y)), s)
  | .ask x query => ((s x).answer query, s)

def run (mix : List UInt8 → UInt64) (s : ι → Bytes) : List (Call ι) → List Reply × (ι → Bytes)
  | [] => ([], s)
  | call :: calls =>
    let served := serve mix s call
    let later := run mix served.2 calls
    (served.1 :: later.1, later.2)

variable {s t : ι → Bytes}

theorem coherent_update (h : ∀ x, (s x).Coherent mix) (x : ι) (hb : b.Coherent mix) (y : ι) :
    (update s x b y).Coherent mix := by
  by_cases hy : y = x
  · subst hy
    simpa using hb
  · simpa [hy] using h y

theorem coherent_serve (h : ∀ x, (s x).Coherent mix) (call : Call ι) (x : ι) :
    ((serve mix s call).2 x).Coherent mix := by
  cases call with
  | make y data frozen => exact coherent_update h y (.inl rfl) x
  | ofString y text => exact coherent_update h y (.inl rfl) x
  | copyAs y z frozen => exact coherent_update h y (.inl rfl) x
  | clone y z => exact coherent_update h y (h z) x
  | slice y z part =>
    simp only [serve]
    cases hslice : (s z).slice part with
    | error cause => exact h x
    | ok b => exact coherent_update h y (coherent_of_slice hslice) x
  | concat y z v => exact coherent_update h y (.inl rfl) x
  | concatInPlace y z => exact coherent_update h y (coherent_concatInPlace mix _ _) x
  | push y byte => exact coherent_update h y ((h y).extend [byte]) x
  | extend y bytes => exact coherent_update h y ((h y).extend bytes) x
  | hash y => exact coherent_update h y (h y).hashWith_snd x
  | equal y z => exact h x
  | compare y z => exact h x
  | ask y query => exact h x

theorem coherent_run (h : ∀ x, (s x).Coherent mix) (calls : List (Call ι)) (x : ι) :
    ((run mix s calls).2 x).Coherent mix := by
  induction calls generalizing s with
  | nil => exact h x
  | cons call calls ih => exact ih (coherent_serve h call)

theorem serve_forget (h : ∀ x, (s x).Coherent mix) (call : Call ι) :
    (serve mix s call).1 = (serve mix (forget ∘ s) call).1 ∧
      forget ∘ (serve mix s call).2 = forget ∘ (serve mix (forget ∘ s) call).2 := by
  have hidem : forget ∘ forget ∘ s = forget ∘ s := rfl
  cases call with
  | make x data frozen => exact ⟨rfl, by simp only [serve, Function.comp_update, hidem]⟩
  | ofString x text => exact ⟨rfl, by simp only [serve, Function.comp_update, hidem]⟩
  | copyAs x y frozen => exact ⟨rfl, by simp only [serve, Function.comp_update, hidem]; rfl⟩
  | clone x y => exact ⟨rfl, by simp only [serve, Function.comp_update, hidem]; rfl⟩
  | slice x y part =>
    have hslice : (forget (s y)).slice part = (s y).slice part := rfl
    simp only [serve, Function.comp_apply, hslice]
    cases (s y).slice part with
    | error cause => exact ⟨rfl, rfl⟩
    | ok b => exact ⟨rfl, by simp only [Function.comp_update, hidem]⟩
  | concat x y z => exact ⟨rfl, by simp only [serve, Function.comp_update, hidem]; rfl⟩
  | concatInPlace x y =>
    refine ⟨rfl, ?_⟩
    simp only [serve, Function.comp_update, hidem, Function.comp_apply, forget_concatInPlace (s x)]
  | push x byte =>
    obtain ⟨hresult, hafter⟩ := extend_forget (s x) [byte]
    simp only [serve, push, Function.comp_update, hidem, Function.comp_apply, hresult, hafter,
      and_self]
  | extend x bytes =>
    obtain ⟨hresult, hafter⟩ := extend_forget (s x) bytes
    simp only [serve, Function.comp_update, hidem, Function.comp_apply, hresult, hafter, and_self]
  | hash x =>
    simp only [serve, Function.comp_update, hidem, Function.comp_apply, forget_hashWith_snd,
      (h x).hashWith_fst, (coherent_forget mix (s x)).hashWith_fst]
    exact ⟨rfl, rfl⟩
  | equal x y =>
    refine ⟨?_, rfl⟩
    simp only [serve, Function.comp_apply, (h x).beq_forget (h y)]
  | compare x y => exact ⟨rfl, rfl⟩
  | ask x query => cases query <;> exact ⟨rfl, rfl⟩

theorem run_forget (h : ∀ x, (s x).Coherent mix) (calls : List (Call ι)) :
    (run mix s calls).1 = (run mix (forget ∘ s) calls).1 ∧
      forget ∘ (run mix s calls).2 = forget ∘ (run mix (forget ∘ s) calls).2 := by
  induction calls generalizing s with
  | nil => exact ⟨rfl, rfl⟩
  | cons call calls ih =>
    obtain ⟨hreply, hafter⟩ := serve_forget h call
    -- Both stores behind the call forget to the same one, from which the later calls are compared.
    obtain ⟨hleft, hleft'⟩ := ih (coherent_serve h call)
    have hforget : ∀ x, ((forget ∘ s) x).Coherent mix := fun x => coherent_forget mix (s x)
    obtain ⟨hright, hright'⟩ := ih (coherent_serve hforget call)
    rw [hafter] at hleft hleft'
    refine ⟨?_, hleft'.trans hright'.symm⟩
    show _ :: _ = _ :: _
    rw [hreply, hleft, ← hright]

/-- Runs from stores that differ in what they remember give the same answers. -/
theorem run_eq_of_forget_eq (hs : ∀ x, (s x).Coherent mix) (ht : ∀ x, (t x).Coherent mix)
    (h : forget ∘ s = forget ∘ t) (calls : List (Call ι)) :
    (run mix s calls).1 = (run mix t calls).1 ∧
      forget ∘ (run mix s calls).2 = forget ∘ (run mix t calls).2 := by
  obtain ⟨hleft, hleft'⟩ := run_forget hs calls
  obtain ⟨hright, hright'⟩ := run_forget ht calls
  rw [h] at hleft hleft'
  exact ⟨hleft.trans hright.symm, hleft'.trans hright'.symm⟩

def ownCalls (marked : List (Call ι ⊕ ι)) : List (Call ι) := marked.filterMap Sum.getLeft?

/-- The calls of a run, with calls for the hash of the names put in between. -/
def allCalls (marked : List (Call ι ⊕ ι)) : List (Call ι) := marked.map (Sum.elim id .hash)

def ownReplies : List (Call ι ⊕ ι) → List Reply → List Reply
  | .inl _ :: marked, reply :: replies => reply :: ownReplies marked replies
  | .inr _ :: marked, _ :: replies => ownReplies marked replies
  | _, _ => []

theorem run_allCalls (h : ∀ x, (s x).Coherent mix) (marked : List (Call ι ⊕ ι)) :
    ownReplies marked (run mix s (allCalls marked)).1 = (run mix s (ownCalls marked)).1 ∧
      forget ∘ (run mix s (allCalls marked)).2 = forget ∘ (run mix s (ownCalls marked)).2 := by
  induction marked generalizing s with
  | nil => exact ⟨rfl, rfl⟩
  | cons mark marked ih =>
    cases mark with
    | inl call =>
      obtain ⟨hreplies, hafter⟩ := ih (coherent_serve h call)
      exact ⟨congrArg ((serve mix s call).1 :: ·) hreplies, hafter⟩
    | inr x =>
      have hsame : forget ∘ (serve mix s (.hash x)).2 = forget ∘ s := by
        simp only [serve, Function.comp_update, forget_hashWith_snd]
        exact Function.update_eq_self x (forget ∘ s)
      obtain ⟨hreplies, hafter⟩ := ih (coherent_serve h (.hash x))
      obtain ⟨hown, hown'⟩ :=
        run_eq_of_forget_eq (coherent_serve h (.hash x)) h hsame (ownCalls marked)
      exact ⟨hreplies.trans hown, hafter.trans hown'⟩

def fresh : ι → Bytes := fun _ => { data := [] }

/-- Whatever is called, a byte string remembers no other hash than that of its contents. Its hash is
that of its contents, equality is that of contents and agrees with the hash, and hashes asked for in
between change neither the answers nor what the names stand for. -/
theorem remembered_hash_does_not_show (mix : List UInt8 → UInt64) (calls : List (Call ι)) :
    let s := (run mix fresh calls).2
    (∀ x, (s x).Coherent mix) ∧
      (∀ x, ((s x).hashWith mix).1 = hashOf mix (s x).data ∧
        hashOf mix (s x).data ≠ hashUnknown) ∧
      (∀ x y, (s x == s y) = true ↔ (s x).data = (s y).data) ∧
      Equivalence (fun x y => (s x == s y) = true) ∧
      (∀ x y, (s x == s y) = true → ((s x).hashWith mix).1 = ((s y).hashWith mix).1) ∧
      ∀ marked : List (Call ι ⊕ ι), ownCalls marked = calls →
        let padded := run mix fresh (allCalls marked)
        ownReplies marked padded.1 = (run mix fresh calls).1 ∧
          ∀ x, (padded.2 x).data = (s x).data ∧ (padded.2 x).frozen = (s x).frozen := by
  intro s
  have hfresh : ∀ x : ι, (fresh x).Coherent mix := fun _ => .inl rfl
  have hs : ∀ x, (s x).Coherent mix := coherent_run hfresh calls
  have hbeq : ∀ x y, (s x == s y) = true ↔ (s x).data = (s y).data :=
    fun x y => (hs x).beq_iff (hs y)
  refine ⟨hs, fun x => ⟨(hs x).hashWith_fst, hashOf_ne_hashUnknown mix _⟩, hbeq, ?_, ?_, ?_⟩
  · simp only [hbeq]
    exact ⟨fun _ => rfl, Eq.symm, Eq.trans⟩
  · intro x y hxy
    rw [(hs x).hashWith_fst, (hs y).hashWith_fst, (hbeq x y).mp hxy]
  · rintro marked rfl
    obtain ⟨hreplies, hafter⟩ := run_allCalls hfresh marked
    exact ⟨hreplies, fun x => forget_eq_forget_iff.mp (congrFun hafter x)⟩

/-- A buffer is hashed, copied with its hash, and grows; further hashes are asked for in between. -/
theorem remembered_hash_does_not_show_grown :
    let calls : List (Call Bool) := [.make true [1] false, .hash true, .clone false true,
      .push true 2, .equal true false, .push false 2, .equal true false]
    let marked : List (Call Bool ⊕ Bool) := [.inl (.make true [1] false), .inl (.hash true),
      .inl (.clone false true), .inl (.push true 2), .inr true, .inl (.equal true false),
      .inl (.push false 2), .inr false, .inl (.equal true false)]
    let s := (run mixed fresh calls).2
    (s true == s false) = true ∧ ((s true).hashWith mixed).1 = ((s false).hashWith mixed).1 ∧
      ownReplies marked (run mixed fresh (allCalls marked)).1 =
        [.done, .hash (hashOf mixed [1]), .done, .done, .truth false, .done, .truth true] := by
  intro calls marked s
  obtain ⟨-, -, hbeq, -, hhash, hmarked⟩ := remembered_hash_does_not_show mixed calls
  have hequal : (s true == s false) = true := (hbeq true false).mpr rfl
  exact ⟨hequal, hhash true false hequal, (hmarked marked rfl).1⟩

end Tabular.Bytes
