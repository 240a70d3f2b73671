import FeatureNet.IdMap

namespace FeatureNet

/-- A finite set of feature ids: the keys of a map without values. -/
structure IdSet where
  toMap : IdMap Unit
deriving DecidableEq, Inhabited

namespace IdSet

def empty : IdSet := ⟨.empty⟩

def toList (s : IdSet) : List FeatureId := s.toMap.keys

def size (s : IdSet) : Nat := s.toMap.size

def isEmpty (s : IdSet) : Bool := s.toMap.isEmpty

def contains (s : IdSet) (id : FeatureId) : Bool := s.toMap.contains id

instance : Membership FeatureId IdSet := ⟨fun s id => s.contains id = true⟩

instance (id : FeatureId) (s : IdSet) : Decidable (id ∈ s) :=
  inferInstanceAs (Decidable (s.contains id = true))

def insert (s : IdSet) (id : FeatureId) : IdSet := ⟨s.toMap.insert id ()⟩

def erase (s : IdSet) (id : FeatureId) : IdSet := ⟨s.toMap.erase id⟩

def ofList (ids : List FeatureId) : IdSet := ids.foldl insert empty

theorem mem_toList {s : IdSet} {id : FeatureId} : id ∈ s.toList ↔ id ∈ s :=
  IdMap.contains_iff_mem_keys.symm

theorem toList_ascending (s : IdSet) : s.toList.Pairwise (· < ·) := s.toMap.keys_ascending

@[simp] theorem not_mem_empty (id : FeatureId) : id ∉ empty := by
  change ¬(false = true); simp

@[simp] theorem mem_insert {s : IdSet} {a id : FeatureId} : id ∈ s.insert a ↔ id = a ∨ id ∈ s := by
  change (IdMap.insert _ _ _).contains id = true ↔ _ ∨ s.toMap.contains id = true
  rw [IdMap.contains, IdMap.get?_insert]
  split <;> simp_all [IdMap.contains]

@[simp] theorem mem_erase {s : IdSet} {a id : FeatureId} : id ∈ s.erase a ↔ id ≠ a ∧ id ∈ s := by
  change (IdMap.erase _ _).contains id = true ↔ _ ∧ s.toMap.contains id = true
  rw [IdMap.contains, IdMap.get?_erase]
  split <;> simp_all [IdMap.contains]

theorem mem_ofList {ids : List FeatureId} {id : FeatureId} : id ∈ ofList ids ↔ id ∈ ids := by
  suffices general : ∀ s : IdSet, id ∈ ids.foldl insert s ↔ id ∈ ids ∨ id ∈ s by
    simpa [ofList] using general empty
  induction ids with
  | nil => simp
  | cons head rest ih =>
    intro s
    rw [List.foldl_cons, ih, mem_insert, List.mem_cons]
    grind

/-- Two sets with the same ids are the same set. -/
theorem ext_mem {s t : IdSet} (same : ∀ id, id ∈ s ↔ id ∈ t) : s = t := by
  obtain ⟨m⟩ := s
  obtain ⟨n⟩ := t
  refine congrArg mk (IdMap.ext_get? fun id => ?_)
  have present : (m.get? id).isSome = (n.get? id).isSome := Bool.eq_iff_iff.mpr (same id)
  cases found : m.get? id with
  | none =>
    rw [found] at present
    exact (Option.isNone_iff_eq_none.mp (by simpa using present.symm)).symm
  | some a =>
    rw [found] at present
    obtain ⟨b, found'⟩ := Option.isSome_iff_exists.mp present.symm
    exact found'.symm

/-- The ids of a set, listed, make up the set again. -/
theorem ofList_toList (s : IdSet) : ofList s.toList = s :=
  ext_mem fun _ => mem_ofList.trans mem_toList

end IdSet

end FeatureNet
