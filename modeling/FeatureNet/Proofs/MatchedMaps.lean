import FeatureNet.IdMap
import Mathlib.Data.List.Forall2
import Mathlib.Data.List.Sort

namespace FeatureNet

instance : Std.Antisymm (α := FeatureId) (· < ·) :=
  ⟨fun _ _ less greater => absurd (FeatureId.lt_trans less greater) (FeatureId.lt_irrefl _)⟩

namespace IdMap

variable {α β : Type} {m : IdMap α} {k : IdMap β}

/-- Maps that have the same ids list them alike. -/
theorem keys_congr (same : ∀ id, m.contains id = k.contains id) : m.keys = k.keys := by
  refine m.keys_ascending.eq_of_mem_iff k.keys_ascending fun id => ?_
  rw [← contains_iff_mem_keys, ← contains_iff_mem_keys, same]

theorem size_congr (same : m.keys = k.keys) : m.size = k.size := by
  have length := congrArg List.length same
  rwa [keys, keys, List.length_map, List.length_map] at length

/-- An id and its value stand at one place of the two lists. -/
theorem get?_eq_some_iff {id : FeatureId} {a : α} :
    m.get? id = some a ↔ ∃ i : Nat, m.keys[i]? = some id ∧ m.values[i]? = some a := by
  rw [← mem_entries_iff, List.mem_iff_getElem?]
  refine exists_congr fun i => ?_
  rw [keys, values, List.getElem?_map, List.getElem?_map]
  cases m.entries[i]? with
  | none => simp
  | some entry => simp [Prod.ext_iff]

theorem length_values (m : IdMap α) : m.values.length = m.keys.length := by
  rw [values, keys, List.length_map, List.length_map]

/-- Maps answer for every id by related values exactly if their lists of ids are equal and their lists of
values are related. -/
theorem rel_get?_iff {r : α → β → Prop} :
    (∀ id, Option.Rel r (m.get? id) (k.get? id)) ↔ m.keys = k.keys ∧ List.Forall₂ r m.values k.values := by
  constructor
  · intro related
    have keys : m.keys = k.keys := keys_congr fun id => by
      have here := related id
      unfold contains
      generalize m.get? id = x at here ⊢
      generalize k.get? id = y at here ⊢
      cases here <;> rfl
    refine ⟨keys, List.forall₂_iff_get.mpr ⟨by rw [length_values, length_values, keys], fun i here there => ?_⟩⟩
    obtain ⟨id, atI⟩ : ∃ id, m.keys[i]? = some id :=
      ⟨_, List.getElem?_eq_getElem (by rwa [← length_values])⟩
    have found : m.get? id = some (m.values.get ⟨i, here⟩) :=
      get?_eq_some_iff.mpr ⟨i, atI, List.getElem?_eq_getElem here⟩
    have found' : k.get? id = some (k.values.get ⟨i, there⟩) :=
      get?_eq_some_iff.mpr ⟨i, keys ▸ atI, List.getElem?_eq_getElem there⟩
    have both := related id
    rw [found, found'] at both
    cases both with
    | some values => exact values
  · rintro ⟨keys, values⟩ id
    have length : m.values.length = k.values.length := values.length_eq
    cases found : m.get? id with
    | none =>
      cases found' : k.get? id with
      | none => exact .none
      | some b =>
        obtain ⟨i, atI, value⟩ := get?_eq_some_iff.mp found'
        have within := (List.getElem?_eq_some_iff.mp value).1
        rw [get?_eq_some_iff.mpr ⟨i, keys ▸ atI, List.getElem?_eq_getElem (length ▸ within)⟩] at found
        cases found
    | some a =>
      obtain ⟨i, atI, value⟩ := get?_eq_some_iff.mp found
      obtain ⟨within, rfl⟩ := List.getElem?_eq_some_iff.mp value
      have found' : k.get? id = some (k.values.get ⟨i, length ▸ within⟩) :=
        get?_eq_some_iff.mpr ⟨i, keys ▸ atI, List.getElem?_eq_getElem _⟩
      rw [found']
      exact .some (values.get within (length ▸ within))

end IdMap

end FeatureNet
