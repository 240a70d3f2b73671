import FeatureNet.FeatureId

namespace FeatureNet

universe u v

/-- A finite map keyed by feature id, held as the ascending list of its entries: two maps with the same
entries are equal, and every walk over a map is in ascending order of id. -/
structure IdMap (α : Type u) where
  entries : List (FeatureId × α)
  ascending : entries.Pairwise fun a b => a.1 < b.1

namespace IdMap

variable {α : Type u} {β : Type v}

@[ext] theorem ext {m n : IdMap α} (same : m.entries = n.entries) : m = n := by
  cases m; cases n; cases same; rfl

instance [DecidableEq α] : DecidableEq (IdMap α) := fun m n =>
  decidable_of_iff (m.entries = n.entries) ⟨ext, fun same => same ▸ rfl⟩

def empty : IdMap α := ⟨[], .nil⟩

instance : Inhabited (IdMap α) := ⟨empty⟩

def keys (m : IdMap α) : List FeatureId := m.entries.map (·.1)

def values (m : IdMap α) : List α := m.entries.map (·.2)

def size (m : IdMap α) : Nat := m.entries.length

def isEmpty (m : IdMap α) : Bool := m.entries.isEmpty

def get? (m : IdMap α) (id : FeatureId) : Option α := m.entries.lookup id

def contains (m : IdMap α) (id : FeatureId) : Bool := (m.get? id).isSome

/-- Puts an entry at its place among ascending entries, over an entry of the same id. -/
def place (id : FeatureId) (a : α) : List (FeatureId × α) → List (FeatureId × α)
  | [] => [(id, a)]
  | e :: rest =>
    if id < e.1 then (id, a) :: e :: rest
    else if id = e.1 then (id, a) :: rest
    else e :: place id a rest

theorem mem_place {id : FeatureId} {a : α} {l : List (FeatureId × α)} {e : FeatureId × α}
    (member : e ∈ place id a l) : e = (id, a) ∨ e ∈ l := by
  induction l with
  | nil => simpa [place] using member
  | cons head rest ih =>
    unfold place at member
    split at member
    · simpa using member
    · split at member
      · rcases List.mem_cons.mp member with same | old
        · exact .inl same
        · exact .inr (List.mem_cons_of_mem _ old)
      · rcases List.mem_cons.mp member with same | old
        · exact .inr (same ▸ List.mem_cons_self ..)
        · exact (ih old).imp_right (List.mem_cons_of_mem _)

theorem pairwise_place {id : FeatureId} {a : α} {l : List (FeatureId × α)}
    (ascending : l.Pairwise fun a b => a.1 < b.1) :
    (place id a l).Pairwise fun a b => a.1 < b.1 := by
  induction l with
  | nil => simp [place]
  | cons head rest ih =>
    obtain ⟨below, tail⟩ := List.pairwise_cons.mp ascending
    unfold place
    split
    · next less =>
      refine List.pairwise_cons.mpr ⟨fun e member => ?_, ascending⟩
      rcases List.mem_cons.mp member with same | old
      · exact same ▸ less
      · exact FeatureId.lt_trans less (below e old)
    · next notLess =>
      split
      · next same =>
        exact List.pairwise_cons.mpr ⟨fun e member => by simpa [same] using below e member, tail⟩
      · next different =>
        refine List.pairwise_cons.mpr ⟨fun e member => ?_, ih tail⟩
        rcases mem_place member with same | old
        · exact same ▸ FeatureId.lt_of_not_lt_of_ne notLess different
        · exact below e old

/-- Adds an entry, over an entry of the same id. -/
def insert (m : IdMap α) (id : FeatureId) (a : α) : IdMap α :=
  ⟨place id a m.entries, pairwise_place m.ascending⟩

def erase (m : IdMap α) (id : FeatureId) : IdMap α :=
  ⟨m.entries.filter fun e => e.1 ≠ id, m.ascending.filter _⟩

/-- Changes every value and no id. -/
def mapValues (m : IdMap α) (f : FeatureId → α → β) : IdMap β :=
  ⟨m.entries.map fun e => (e.1, f e.1 e.2), by rw [List.pairwise_map]; exact m.ascending⟩

/-- Changes the value at one id, if there is one. -/
def modify (m : IdMap α) (id : FeatureId) (f : α → α) : IdMap α :=
  m.mapValues fun key a => if key = id then f a else a

/-- The map of a list of entries; of two entries with one id the later stays. -/
def ofList (l : List (FeatureId × α)) : IdMap α := l.foldl (fun m e => m.insert e.1 e.2) empty

theorem lookup_place (id key : FeatureId) (a : α) (l : List (FeatureId × α)) :
    (place id a l).lookup key = if key = id then some a else l.lookup key := by
  induction l with
  | nil =>
    by_cases same : key = id
    · simp [place, same]
    · simp [place, List.lookup_cons, if_neg same, beq_false_of_ne same]
  | cons head rest ih =>
    obtain ⟨k, b⟩ := head
    unfold place
    by_cases same : key = id
    · subst same
      split
      · simp
      · split
        · simp
        · next different => simpa [List.lookup_cons, beq_false_of_ne different] using ih
    · split
      · simp [List.lookup_cons, beq_false_of_ne same]
      · split
        · next equal =>
          simp only at equal; subst equal
          simp [List.lookup_cons, beq_false_of_ne same]
        · simp only [List.lookup_cons, ih, same, if_false]

@[simp] theorem get?_empty (id : FeatureId) : (empty : IdMap α).get? id = none := rfl

theorem get?_insert (m : IdMap α) (id key : FeatureId) (a : α) :
    (m.insert id a).get? key = if key = id then some a else m.get? key :=
  lookup_place id key a m.entries

theorem get?_erase (m : IdMap α) (id key : FeatureId) :
    (m.erase id).get? key = if key = id then none else m.get? key := by
  obtain ⟨l, _⟩ := m
  simp only [erase, get?]
  induction l with
  | nil => simp
  | cons head rest ih =>
    obtain ⟨k, b⟩ := head
    rename_i sorted
    have tail := ih (List.pairwise_cons.mp sorted).2
    by_cases gone : k = id
    · subst gone
      by_cases same : key = k
      · simpa [same] using tail
      · simpa [List.lookup_cons, same, beq_false_of_ne same] using tail
    · by_cases same : key = k
      · subst same
        simp [gone]
      · simpa [List.lookup_cons, gone, beq_false_of_ne same] using tail

theorem get?_mapValues (m : IdMap α) (f : FeatureId → α → β) (id : FeatureId) :
    (m.mapValues f).get? id = (m.get? id).map (f id) := by
  obtain ⟨l, _⟩ := m
  simp only [mapValues, get?]
  induction l with
  | nil => rfl
  | cons head rest ih =>
    obtain ⟨k, b⟩ := head
    rename_i sorted
    by_cases same : id = k
    · subst same; simp
    · simpa [List.lookup_cons, beq_false_of_ne same] using ih (List.pairwise_cons.mp sorted).2

theorem get?_modify (m : IdMap α) (id key : FeatureId) (f : α → α) :
    (m.modify id f).get? key = if key = id then (m.get? key).map f else m.get? key := by
  simp only [modify, get?_mapValues]
  split <;> simp

theorem mem_entries_iff {m : IdMap α} {id : FeatureId} {a : α} :
    (id, a) ∈ m.entries ↔ m.get? id = some a := by
  obtain ⟨l, sorted⟩ := m
  simp only [get?]
  induction l with
  | nil => simp
  | cons head rest ih =>
    obtain ⟨k, b⟩ := head
    obtain ⟨below, tail⟩ := List.pairwise_cons.mp sorted
    by_cases same : id = k
    · subst same
      have absent : (id, a) ∉ rest := fun member => FeatureId.ne_of_lt (below (id, a) member) rfl
      simp [absent, eq_comm]
    · simpa [List.lookup_cons, beq_false_of_ne same, same] using ih tail

theorem nodup_entries (m : IdMap α) : m.entries.Nodup := by
  refine m.ascending.imp ?_
  rintro a _ below rfl
  exact FeatureId.lt_irrefl _ below

theorem length_place {id : FeatureId} {l : List (FeatureId × α)} (fresh : l.lookup id = none) (a : α) :
    (place id a l).length = l.length + 1 := by
  induction l with
  | nil => rfl
  | cons head rest ih =>
    obtain ⟨k, b⟩ := head
    unfold place
    split
    · rfl
    · split
      · next same => simp [same] at fresh
      · next different =>
        rw [List.lookup_cons, beq_false_of_ne different] at fresh
        rw [List.length_cons, ih fresh, List.length_cons]

theorem size_insert {m : IdMap α} {id : FeatureId} (fresh : m.get? id = none) (a : α) :
    (m.insert id a).size = m.size + 1 := length_place fresh a

theorem size_modify (m : IdMap α) (id : FeatureId) (f : α → α) : (m.modify id f).size = m.size :=
  List.length_map ..

/-- Two maps that answer alike are the same map. -/
theorem ext_get? {m n : IdMap α} (same : ∀ id, m.get? id = n.get? id) : m = n := by
  have members : ∀ e, e ∈ m.entries ↔ e ∈ n.entries := by
    intro (id, a)
    rw [mem_entries_iff, mem_entries_iff, same]
  have perm := (List.perm_ext_iff_of_nodup m.nodup_entries n.nodup_entries).mpr members
  refine ext (perm.eq_of_pairwise (fun a b _ _ ab ba => ?_) m.ascending n.ascending)
  exact absurd (FeatureId.lt_trans ab ba) (FeatureId.lt_irrefl _)

theorem place_last {id : FeatureId} {l : List (FeatureId × α)} (below : ∀ e ∈ l, e.1 < id) (a : α) :
    place id a l = l ++ [(id, a)] := by
  induction l with
  | nil => rfl
  | cons head rest ih =>
    have less := below head (List.mem_cons_self ..)
    have notLess : ¬id < head.1 := fun above => FeatureId.lt_irrefl _ (FeatureId.lt_trans less above)
    rw [place, if_neg notLess, if_neg (FeatureId.ne_of_lt less).symm,
      ih fun e member => below e (List.mem_cons_of_mem _ member), List.cons_append]

/-- The entries of a map, listed, make up the map again. -/
theorem ofList_entries (m : IdMap α) : ofList m.entries = m := by
  have general (l : List (FeatureId × α)) (n : IdMap α)
      (ascending : (n.entries ++ l).Pairwise fun a b => a.1 < b.1) :
      (l.foldl (fun m e => m.insert e.1 e.2) n).entries = n.entries ++ l := by
    induction l generalizing n with
    | nil => rw [List.foldl_nil, List.append_nil]
    | cons e l ih =>
      have below := (List.pairwise_append.mp ascending).2.2
      have placed : (n.insert e.1 e.2).entries = n.entries ++ [e] :=
        place_last (fun e' member => below e' member e (List.mem_cons_self ..)) e.2
      rw [List.foldl_cons, ih _ (by simpa [placed] using ascending), placed, List.append_assoc, List.singleton_append]
  exact ext (general m.entries empty m.ascending)

theorem contains_iff_mem_keys {m : IdMap α} {id : FeatureId} :
    m.contains id = true ↔ id ∈ m.keys := by
  simp only [contains, Option.isSome_iff_exists, ← mem_entries_iff, keys, List.mem_map, Prod.exists]
  exact ⟨fun ⟨a, member⟩ => ⟨id, a, member, rfl⟩, fun ⟨_, a, member, same⟩ => ⟨a, same ▸ member⟩⟩

theorem keys_ascending (m : IdMap α) : m.keys.Pairwise (· < ·) := by
  rw [keys, List.pairwise_map]; exact m.ascending

end IdMap

end FeatureNet
