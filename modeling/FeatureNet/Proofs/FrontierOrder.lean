import FeatureNet.Frontier

namespace FeatureNet

universe u

namespace Frontier

variable {α : Type u}

theorem before_iff {a b : Binary64 × Nat × α} :
    before a b = true ↔ a.1.rank < b.1.rank ∨ a.1.rank = b.1.rank ∧ a.2.1 < b.2.1 := by
  simp [before]

theorem before_trans {a b c : Binary64 × Nat × α} (ab : before a b = true) (bc : before b c = true) :
    before a c = true := by
  rw [before_iff] at *
  omega

/-- Of two entries one is taken before the other, unless they have one cost and one number. -/
theorem before_trichotomy (a b : Binary64 × Nat × α) :
    before a b = true ∨ before b a = true ∨ a.1 = b.1 ∧ a.2.1 = b.2.1 := by
  rw [before_iff, before_iff, ← Binary64.rank_inj]
  omega

/-- Ascending entries, each with a number below the next one to be given, so that no entry
is ever put over another. -/
structure Ordered (f : Frontier α) : Prop where
  ascending : f.entries.Pairwise fun a b => before a b = true
  numbered : ∀ e ∈ f.entries, e.2.1 < f.next

theorem eq_or_mem_of_mem_place {entry e : Binary64 × Nat × α} {l : List (Binary64 × Nat × α)}
    (member : e ∈ place entry l) : e = entry ∨ e ∈ l := by
  induction l with
  | nil => simpa [place] using member
  | cons head rest ih =>
    unfold place at member
    split at member
    · exact List.mem_cons.mp member
    · split at member
      · rcases List.mem_cons.mp member with same | later
        · exact .inr (same ▸ List.mem_cons_self ..)
        · exact (ih later).imp_right (List.mem_cons_of_mem _)
      · exact (List.mem_cons.mp member).imp_right (List.mem_cons_of_mem _)

/-- Among entries with other numbers an entry is put beside the others. -/
theorem perm_place {entry : Binary64 × Nat × α} {l : List (Binary64 × Nat × α)}
    (fresh : ∀ e ∈ l, e.2.1 ≠ entry.2.1) : (place entry l).Perm (entry :: l) := by
  induction l with
  | nil => exact .refl _
  | cons head rest ih =>
    unfold place
    split
    · exact .refl _
    · next notFirst =>
      split
      · have onward := ih fun e member => fresh e (List.mem_cons_of_mem _ member)
        exact (onward.cons head).trans (.swap entry head rest)
      · next notLater =>
        obtain ⟨_, number⟩ := ((before_trichotomy entry head).resolve_left notFirst).resolve_left notLater
        exact absurd number.symm (fresh head (List.mem_cons_self ..))

theorem pairwise_place {entry : Binary64 × Nat × α} {l : List (Binary64 × Nat × α)}
    (ascending : l.Pairwise fun a b => before a b = true) :
    (place entry l).Pairwise fun a b => before a b = true := by
  induction l with
  | nil => simp [place]
  | cons head rest ih =>
    obtain ⟨above, tail⟩ := List.pairwise_cons.mp ascending
    unfold place
    split
    · next first =>
      refine List.pairwise_cons.mpr ⟨fun e member => ?_, ascending⟩
      rcases List.mem_cons.mp member with same | old
      · exact same ▸ first
      · exact before_trans first (above e old)
    · next notFirst =>
      split
      · next later =>
        refine List.pairwise_cons.mpr ⟨fun e member => ?_, ih tail⟩
        rcases eq_or_mem_of_mem_place member with same | old
        · exact same ▸ later
        · exact above e old
      · next notLater =>
        obtain ⟨cost, number⟩ := ((before_trichotomy entry head).resolve_left notFirst).resolve_left notLater
        refine List.pairwise_cons.mpr ⟨fun e member => ?_, tail⟩
        have less := before_iff.mp (above e member)
        exact before_iff.mpr (by rwa [cost, number])

theorem eq_or_mem_of_mem_push {f : Frontier α} {cost : Binary64} {item : α} {e : Binary64 × Nat × α}
    (member : e ∈ (f.push cost item).entries) : e = (cost, f.next, item) ∨ e ∈ f.entries :=
  eq_or_mem_of_mem_place member

/-- No entry has the next number, so that what is pushed comes beside the others. -/
theorem Ordered.perm_push {f : Frontier α} (ordered : f.Ordered) (cost : Binary64) (item : α) :
    (f.push cost item).entries.Perm ((cost, f.next, item) :: f.entries) :=
  perm_place fun e member => Nat.ne_of_lt (ordered.numbered e member)

theorem Ordered.mem_push {f : Frontier α} (ordered : f.Ordered) {cost : Binary64} {item : α}
    {e : Binary64 × Nat × α} :
    e ∈ (f.push cost item).entries ↔ e = (cost, f.next, item) ∨ e ∈ f.entries :=
  (ordered.perm_push cost item).mem_iff.trans List.mem_cons

theorem ordered_empty : (empty : Frontier α).Ordered := ⟨.nil, by simp [empty]⟩

theorem Ordered.push {f : Frontier α} (ordered : f.Ordered) (cost : Binary64) (item : α) :
    (f.push cost item).Ordered where
  ascending := pairwise_place ordered.ascending
  numbered e member := by
    rcases eq_or_mem_of_mem_push member with same | old
    · rw [same]
      exact Nat.lt_succ_self _
    · exact Nat.lt_succ_of_lt (ordered.numbered e old)

theorem Ordered.retain {f : Frontier α} (ordered : f.Ordered) (keep : α → Bool) :
    (f.retain keep).Ordered where
  ascending := ordered.ascending.filter _
  numbered e member := ordered.numbered e (List.mem_filter.mp member).1

theorem entries_of_popMin? {f g : Frontier α} {cost : Binary64} {item : α}
    (taken : f.popMin? = some ((cost, item), g)) :
    ∃ number, f.entries = (cost, number, item) :: g.entries ∧ g.next = f.next := by
  unfold popMin? at taken
  split at taken
  · cases taken
  · next number _ rest entries =>
    cases taken
    exact ⟨number, entries, rfl⟩

/-- What is taken is one of the entries and comes before all the others. -/
theorem Ordered.first {f g : Frontier α} {cost : Binary64} {item : α} (ordered : f.Ordered)
    (taken : f.popMin? = some ((cost, item), g)) :
    ∃ number, f.entries = (cost, number, item) :: g.entries ∧
      ∀ e ∈ g.entries, before (cost, number, item) e = true := by
  obtain ⟨number, entries, _⟩ := entries_of_popMin? taken
  have ascending := ordered.ascending
  rw [entries] at ascending
  exact ⟨number, entries, (List.pairwise_cons.mp ascending).1⟩

/-- None of the others is cheaper. -/
theorem Ordered.popMin {f g : Frontier α} {cost : Binary64} {item : α} (ordered : f.Ordered)
    (taken : f.popMin? = some ((cost, item), g)) :
    g.Ordered ∧ ∃ number, f.entries = (cost, number, item) :: g.entries ∧
      ∀ e ∈ g.entries, cost.rank ≤ e.1.rank := by
  obtain ⟨_, _, next⟩ := entries_of_popMin? taken
  obtain ⟨number, entries, above⟩ := ordered.first taken
  have ascending := ordered.ascending
  rw [entries] at ascending
  refine ⟨⟨(List.pairwise_cons.mp ascending).2, fun e member => ?_⟩, number, entries, fun e member => ?_⟩
  · rw [next]
    exact ordered.numbered e (entries ▸ List.mem_cons_of_mem _ member)
  · have later := before_iff.mp (above e member)
    dsimp only at later
    omega

theorem popMin?_eq_none_iff {f : Frontier α} : f.popMin? = none ↔ f.entries = [] := by
  unfold popMin?
  split
  · next empty => simp [empty]
  · next entries => simp [entries]

/-- An item waits at a cost, under some number. -/
def Holds (f : Frontier α) (cost : Binary64) (item : α) : Prop := ∃ number, (cost, number, item) ∈ f.entries

variable {f g : Frontier α} {cost : Binary64} {item : α}

theorem not_holds_empty : ¬(empty : Frontier α).Holds cost item := by
  rintro ⟨_, member⟩
  exact List.not_mem_nil member

theorem holds_of_push {newCost : Binary64} {new : α} (holds : (f.push newCost new).Holds cost item) :
    cost = newCost ∧ item = new ∨ f.Holds cost item := by
  obtain ⟨number, member⟩ := holds
  rcases eq_or_mem_of_mem_push member with same | old
  · cases same
    exact .inl ⟨rfl, rfl⟩
  · exact .inr ⟨number, old⟩

theorem holds_retain {keep : α → Bool} :
    (f.retain keep).Holds cost item ↔ f.Holds cost item ∧ keep item = true := by
  simp [Holds, retain]

theorem holds_of_popMin {least : Binary64} {first : α} (taken : f.popMin? = some ((least, first), g))
    (left : g.Holds cost item) : f.Holds cost item := by
  obtain ⟨number, member⟩ := left
  obtain ⟨_, entries, _⟩ := entries_of_popMin? taken
  exact ⟨number, entries ▸ List.mem_cons_of_mem _ member⟩

theorem Ordered.holds_popMin {least : Binary64} {first : α} (ordered : f.Ordered)
    (taken : f.popMin? = some ((least, first), g)) :
    g.Ordered ∧ f.Holds least first ∧
      (∀ {cost item}, f.Holds cost item → cost = least ∧ item = first ∨ g.Holds cost item) ∧
      ∀ {cost item}, g.Holds cost item → f.Holds cost item ∧ least.rank ≤ cost.rank := by
  obtain ⟨ordered', number, entries, above⟩ := ordered.popMin taken
  refine ⟨ordered', ⟨number, entries ▸ List.mem_cons_self ..⟩, ?_, ?_⟩
  · rintro cost item ⟨number', member⟩
    rw [entries] at member
    rcases List.mem_cons.mp member with same | later
    · cases same
      exact .inl ⟨rfl, rfl⟩
    · exact .inr ⟨number', later⟩
  · rintro cost item ⟨number', member⟩
    exact ⟨⟨number', entries ▸ List.mem_cons_of_mem _ member⟩, above _ member⟩

/-- Items pushed one after another, each at its own cost. -/
def pushAll (key : α → Binary64) (items : List α) (f : Frontier α) : Frontier α :=
  items.foldl (fun f item => f.push (key item) item) f

theorem Ordered.pushAll (ordered : f.Ordered) (key : α → Binary64) (items : List α) :
    (f.pushAll key items).Ordered := by
  unfold Frontier.pushAll
  induction items generalizing f with
  | nil => exact ordered
  | cons item items ih => exact ih (ordered.push (key item) item)

theorem next_push (f : Frontier α) (cost : Binary64) (item : α) : (f.push cost item).next = f.next + 1 := rfl

theorem next_pushAll (key : α → Binary64) (items : List α) :
    (f.pushAll key items).next = f.next + items.length := by
  unfold pushAll
  induction items generalizing f with
  | nil => rfl
  | cons first items ih =>
    rw [List.foldl_cons, ih, next_push, List.length_cons]
    omega

/-- Items pushed one after another are numbered one after another. -/
theorem Ordered.mem_pushAll (ordered : f.Ordered) {key : α → Binary64} {items : List α} {number : Nat} :
    (cost, number, item) ∈ (f.pushAll key items).entries ↔
      (cost = key item ∧ ∃ i, number = f.next + i ∧ items[i]? = some item) ∨
        (cost, number, item) ∈ f.entries := by
  unfold Frontier.pushAll
  induction items generalizing f with
  | nil => simp
  | cons first items ih =>
    rw [List.foldl_cons, ih (ordered.push (key first) first), ordered.mem_push, next_push, Prod.mk.injEq,
      Prod.mk.injEq]
    constructor
    · rintro (⟨sameCost, i, numbered, atItem⟩ | ⟨sameCost, numbered, rfl⟩ | old)
      · exact .inl ⟨sameCost, i + 1, by omega, atItem⟩
      · exact .inl ⟨sameCost, 0, numbered, rfl⟩
      · exact .inr old
    · rintro (⟨sameCost, i, numbered, atItem⟩ | old)
      · cases i with
        | zero =>
          cases Option.some.inj atItem
          exact .inr (.inl ⟨sameCost, numbered, rfl⟩)
        | succ i => exact .inl ⟨sameCost, i, by omega, atItem⟩
      · exact .inr (.inr old)

theorem Ordered.holds_pushAll (ordered : f.Ordered) {key : α → Binary64} {items : List α} :
    (f.pushAll key items).Holds cost item ↔ cost = key item ∧ item ∈ items ∨ f.Holds cost item := by
  constructor
  · rintro ⟨number, member⟩
    rcases ordered.mem_pushAll.mp member with ⟨sameCost, _, _, atItem⟩ | old
    · exact .inl ⟨sameCost, List.mem_of_getElem? atItem⟩
    · exact .inr ⟨number, old⟩
  · rintro (⟨sameCost, member⟩ | ⟨number, old⟩)
    · obtain ⟨i, atItem⟩ := List.mem_iff_getElem?.mp member
      exact ⟨_, ordered.mem_pushAll.mpr (.inl ⟨sameCost, i, rfl, atItem⟩)⟩
    · exact ⟨number, ordered.mem_pushAll.mpr (.inr old)⟩

end Frontier

end FeatureNet
