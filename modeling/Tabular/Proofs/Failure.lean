import Tabular.Failure

/-! # Outcomes and lists of computations

An outcome without what a failure leaves behind, operations whose failures change nothing, and
computations that are made for each element of a list and may fail.
-/
namespace Tabular

namespace Outcome

variable {σ : Type u} {β : Type v} {γ : Type w} {before : σ} {refused : Failure → Prop}

def toExcept (o : Outcome σ Unit) : Except Failure σ := o.result.map fun _ => o.after

@[simp] theorem toExcept_done (after : σ) : (done () after).toExcept = .ok after := rfl

@[simp] theorem toExcept_fail (cause : Failure) (after : σ) :
    (fail cause after : Outcome σ Unit).toExcept = .error cause := rfl

theorem toExcept_andThen (o : Outcome σ Unit) (f : σ → Outcome σ Unit) :
    (o.andThen f).toExcept = o.toExcept.bind fun after => (f after).toExcept := by
  rcases o with ⟨_ | _, after⟩ <;> rfl

theorem result_andThen (o : Outcome σ Unit) (f : σ → Outcome σ β) :
    (o.andThen f).result = o.toExcept.bind fun after => (f after).result := by
  rcases o with ⟨_ | _, after⟩ <;> rfl

def map (f : β → γ) (o : Outcome σ β) : Outcome σ γ := ⟨o.result.map f, o.after⟩

/-- The causes of failure are those that `refused` admits, and a failure changes nothing. -/
structure FailsWhen (o : Outcome σ β) (before : σ) (refused : Failure → Prop) : Prop where
  iff : ∀ cause, o.result = .error cause ↔ refused cause
  after : ∀ cause, o.result = .error cause → o.after = before

theorem FailsWhen.map {o : Outcome σ β} (h : o.FailsWhen before refused) (f : β → γ) :
    (o.map f).FailsWhen before refused := by
  have hresult : ∀ cause, (o.map f).result = .error cause ↔ o.result = .error cause := by
    intro cause
    cases ho : o.result <;> simp [Outcome.map, Except.map, ho]
  exact ⟨fun cause => (hresult cause).trans (h.iff cause),
    fun cause hcause => h.after cause ((hresult cause).mp hcause)⟩

end Outcome

section mapM

variable {α : Type u} {β : Type v} {ε : Type w}

theorem mapM_eq_some {f : α → Option β} {l : List α} {r : List β}
    (h : l.map f = r.map some) : l.mapM f = some r := by
  induction l generalizing r with
  | nil =>
    rw [List.map_nil] at h
    rw [List.map_eq_nil_iff.mp h.symm, List.mapM_nil]
    rfl
  | cons a l ih =>
    cases r with
    | nil => cases h
    | cons b r =>
      rw [List.map_cons, List.map_cons, List.cons.injEq] at h
      rw [List.mapM_cons, h.1, ih h.2]
      rfl

theorem mapM_cons_eq_ok {f : α → Except ε β} {a : α} {rest : List α} {pieces : List β} :
    (a :: rest).mapM f = .ok pieces ↔
      ∃ first others, f a = .ok first ∧ rest.mapM f = .ok others ∧ pieces = first :: others := by
  rw [List.mapM_cons]
  cases hfirst : f a with
  | error cause => simp [bind, Except.bind]
  | ok first =>
    cases hothers : rest.mapM f with
    | error cause => simp [bind, Except.bind]
    | ok others =>
      simp only [bind, Except.bind, pure, Except.pure, Except.ok.injEq]
      constructor
      · rintro rfl
        exact ⟨first, others, rfl, rfl, rfl⟩
      · rintro ⟨_, _, rfl, rfl, rfl⟩
        rfl

theorem exists_of_mapM_error {f : α → Except ε β} {as : List α} {cause : ε}
    (h : as.mapM f = .error cause) : ∃ a ∈ as, f a = .error cause := by
  induction as with
  | nil => cases h
  | cons a as ih =>
    cases hfirst : f a with
    | error cause' =>
      simp only [List.mapM_cons, hfirst] at h
      cases h
      exact ⟨a, List.mem_cons_self, hfirst⟩
    | ok b =>
      cases hothers : as.mapM f with
      | error cause' =>
        simp only [List.mapM_cons, hfirst, hothers] at h
        cases h
        obtain ⟨a', hmem, hcause⟩ := ih hothers
        exact ⟨a', List.mem_cons_of_mem a hmem, hcause⟩
      | ok bs => cases h.symm.trans (mapM_cons_eq_ok.mpr ⟨b, bs, hfirst, hothers, rfl⟩)

theorem exists_of_mapM_ok {f : α → Except ε β} {as : List α} {bs : List β}
    (h : as.mapM f = .ok bs) {a : α} (ha : a ∈ as) : ∃ b, f a = .ok b := by
  induction as generalizing bs with
  | nil => cases ha
  | cons a' as ih =>
    obtain ⟨b, bs', hfirst, hothers, -⟩ := mapM_cons_eq_ok.mp h
    rcases List.mem_cons.mp ha with rfl | ha
    · exact ⟨b, hfirst⟩
    · exact ih hothers ha

end mapM

end Tabular
