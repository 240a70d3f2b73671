import FeatureNet.Binary64

namespace FeatureNet

universe u

/-- A queue from which the cheapest entry is taken, and among equally cheap ones the earliest. Costs are
compared in the total order on all bit patterns, and every entry pushed gets the next number. -/
structure Frontier (α : Type u) where
  /-- Cost, number and item of each entry, in the order in which they will be taken. -/
  entries : List (Binary64 × Nat × α)
  next : Nat

namespace Frontier

variable {α : Type u}

def empty : Frontier α := ⟨[], 0⟩

instance : Inhabited (Frontier α) := ⟨empty⟩

/-- Whether an entry is taken before another. -/
def before (a b : Binary64 × Nat × α) : Bool :=
  a.1.rank < b.1.rank || (a.1.rank = b.1.rank && a.2.1 < b.2.1)

/-- Puts an entry at its place among ascending entries, over an entry of the same cost and number. -/
def place (entry : Binary64 × Nat × α) :
    List (Binary64 × Nat × α) → List (Binary64 × Nat × α)
  | [] => [entry]
  | e :: rest =>
    if before entry e then entry :: e :: rest
    else if before e entry then e :: place entry rest
    else entry :: rest

def push (f : Frontier α) (cost : Binary64) (item : α) : Frontier α :=
  ⟨place (cost, f.next, item) f.entries, f.next + 1⟩

def popMin? (f : Frontier α) : Option ((Binary64 × α) × Frontier α) :=
  match f.entries with
  | [] => none
  | (cost, _, item) :: rest => some ((cost, item), { f with entries := rest })

/-- Keeps only the items that pass. -/
def retain (f : Frontier α) (keep : α → Bool) : Frontier α :=
  { f with entries := f.entries.filter fun e => keep e.2.2 }

def size (f : Frontier α) : Nat := f.entries.length

def isEmpty (f : Frontier α) : Bool := f.entries.isEmpty

theorem length_place_le (entry : Binary64 × Nat × α) (l : List (Binary64 × Nat × α)) :
    (place entry l).length ≤ l.length + 1 := by
  induction l with
  | nil => exact Nat.le_refl _
  | cons e rest ih =>
    unfold place
    split
    · exact Nat.le_refl _
    · split
      · exact Nat.succ_le_succ ih
      · exact Nat.le_succ _

theorem size_push_le (f : Frontier α) (cost : Binary64) (item : α) :
    (f.push cost item).size ≤ f.size + 1 := length_place_le _ _

theorem size_of_popMin? {f g : Frontier α} {e : Binary64 × α} (taken : f.popMin? = some (e, g)) :
    f.size = g.size + 1 := by
  unfold popMin? at taken
  split at taken
  · simp at taken
  · next entries =>
    cases taken
    simp [size, entries]

/-- All entries in the order in which they are taken. -/
def drain (f : Frontier α) : List (Binary64 × α) :=
  match _taken : f.popMin? with
  | none => []
  | some (e, rest) => e :: rest.drain
termination_by f.size
decreasing_by
  have := size_of_popMin? _taken
  omega

end Frontier

end FeatureNet
