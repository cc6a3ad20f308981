/-! # Maps in order of insertion

A map whose entries stand in the order in which their keys came in. Inserting a key that is
there already changes its value and keeps its place.
-/
namespace Tabular

structure OrderedMap (κ : Type u) (ν : Type v) where
  entries : List (κ × ν) := []
  deriving DecidableEq, Repr

namespace OrderedMap

variable {κ : Type u} {ν : Type v}

def keys (m : OrderedMap κ ν) : List κ := m.entries.map Prod.fst

variable [DecidableEq κ]

def get? (m : OrderedMap κ ν) (k : κ) : Option ν :=
  (m.entries.find? fun e => e.1 = k).map Prod.snd

def insert (m : OrderedMap κ ν) (k : κ) (v : ν) : OrderedMap κ ν :=
  if k ∈ m.keys then ⟨m.entries.map fun e => if e.1 = k then (e.1, v) else e⟩
  else ⟨m.entries ++ [(k, v)]⟩

def erase (m : OrderedMap κ ν) (k : κ) : OrderedMap κ ν :=
  ⟨m.entries.filter fun e => e.1 ≠ k⟩

def ofList (entries : List (κ × ν)) : OrderedMap κ ν :=
  entries.foldl (fun m e => m.insert e.1 e.2) {}

/-- A new key comes last; a known key keeps its place. -/
theorem keys_insert (m : OrderedMap κ ν) (k : κ) (v : ν) :
    (m.insert k v).keys = if k ∈ m.keys then m.keys else m.keys ++ [k] := by
  unfold insert
  split
  · simp only [keys, List.map_map]
    refine List.map_congr_left fun e _ => ?_
    by_cases he : e.1 = k <;> simp [he]
  · simp [keys]

theorem nodup_keys_insert {m : OrderedMap κ ν} (h : m.keys.Nodup) (k : κ) (v : ν) :
    (m.insert k v).keys.Nodup := by
  rw [keys_insert]
  split
  next => exact h
  next hk =>
    refine List.nodup_append.mpr ⟨h, by simp, fun a ha b hb hab => ?_⟩
    rw [List.mem_singleton] at hb
    exact hk (hb ▸ hab ▸ ha)

theorem keys_erase (m : OrderedMap κ ν) (k : κ) : (m.erase k).keys = m.keys.filter (· ≠ k) := by
  simp [erase, keys, List.filter_map, Function.comp_def]

theorem erase_of_not_mem {m : OrderedMap κ ν} {k : κ} (h : k ∉ m.keys) : m.erase k = m := by
  have hkept : m.entries.filter (fun e => e.1 ≠ k) = m.entries := by
    refine List.filter_eq_self.mpr fun e he => decide_eq_true ?_
    rintro rfl
    exact h (List.mem_map_of_mem he)
  rw [erase, hkept]

theorem get?_eq_none_iff {m : OrderedMap κ ν} {k : κ} : m.get? k = none ↔ k ∉ m.keys := by
  simp only [get?, keys, Option.map_eq_none_iff, List.find?_eq_none, List.mem_map,
    decide_eq_true_eq]
  constructor
  · rintro h ⟨e, he, hk⟩
    exact h e he hk
  · intro h e he hk
    exact h ⟨e, he, hk⟩

theorem get?_insert_self (m : OrderedMap κ ν) (k : κ) (v : ν) :
    (m.insert k v).get? k = some v := by
  unfold insert
  split
  next hk =>
    obtain ⟨e, he, rfl⟩ := List.mem_map.1 hk
    simp only [get?, List.find?_map, Option.map_map, Function.comp_def]
    cases hf : m.entries.find? fun x => decide ((if x.1 = e.1 then (x.1, v) else x).1 = e.1) with
    | none =>
      have := List.find?_eq_none.1 hf e he
      simp at this
    | some x =>
      have hx := List.find?_some hf
      by_cases h : x.1 = e.1
      · simp [h]
      · simp [h] at hx
  next hk =>
    have hn : m.entries.find? (fun e => decide (e.1 = k)) = none := by
      have := get?_eq_none_iff.2 hk
      simpa only [get?, Option.map_eq_none_iff] using this
    simp [get?, List.find?_append, hn]

theorem get?_insert_of_ne (m : OrderedMap κ ν) {k l : κ} (v : ν) (h : l ≠ k) :
    (m.insert k v).get? l = m.get? l := by
  unfold insert
  split
  · simp only [get?, List.find?_map, Option.map_map, Function.comp_def]
    have hp : (fun x : κ × ν => decide ((if x.1 = k then (x.1, v) else x).1 = l)) =
        fun x => decide (x.1 = l) := by
      funext x
      by_cases hx : x.1 = k <;> simp [hx]
    rw [hp]
    cases hf : m.entries.find? fun x => decide (x.1 = l) with
    | none => rfl
    | some x =>
      have hx : x.1 = l := by simpa using List.find?_some hf
      simp [hx, h]
  · simp [get?, List.find?_append, Ne.symm h]

theorem get?_erase_self (m : OrderedMap κ ν) (k : κ) : (m.erase k).get? k = none := by
  simp [get?_eq_none_iff, keys_erase]

theorem get?_erase_of_ne (m : OrderedMap κ ν) {k l : κ} (h : l ≠ k) :
    (m.erase k).get? l = m.get? l := by
  simp only [get?, erase, List.find?_filter]
  congr 2
  funext e
  by_cases he : e.1 = l <;> simp [he, h]

end OrderedMap

end Tabular
