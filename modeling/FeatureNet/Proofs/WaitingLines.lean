import FeatureNet.Proofs.FrontierOrder
import FeatureNet.Proofs.TotalOrder

namespace FeatureNet

open Binary64

universe u v

variable {α : Type u} {β : Type v}

/-- Whether the first entry costs no more than the second, in the total order of costs. -/
def noDearer (a b : Binary64 × β) : Bool := a.1.TotalLE b.1

theorem noDearer_iff {a b : Binary64 × β} : noDearer a b = true ↔ a.1.rank ≤ b.1.rank :=
  decide_eq_true_iff.trans totalLE_iff

theorem noDearer_trans (a b c : Binary64 × β) (ab : noDearer a b = true) (bc : noDearer b c = true) :
    noDearer a c = true :=
  decide_eq_true (trans_of TotalLE (of_decide_eq_true ab) (of_decide_eq_true bc))

theorem noDearer_total (a b : Binary64 × β) : (noDearer a b || noDearer b a) = true := by
  rw [Bool.or_eq_true]
  exact (total_of TotalLE a.1 b.1).imp decide_eq_true decide_eq_true

/-- What can be asked of a queue. -/
inductive Frontier.Call (α : Type u)
  | push (cost : Binary64) (item : α)
  | popMin
  | retain (keep : α → Bool)

namespace Frontier.Call

def isPush : Call α → Bool
  | push .. => true
  | _ => false

/-- What calls return, one after another, and the queue that they leave. -/
def serve (act : β → Call α → Option (Binary64 × α) × β) (queue : β) :
    List (Call α) → List (Option (Binary64 × α)) × β
  | [] => ([], queue)
  | call :: calls =>
    let (returned, next) := act queue call
    let (later, left) := serve act next calls
    (returned :: later, left)

end Frontier.Call

/-- Entries in the order in which they came. -/
structure Line (α : Type u) where
  entries : List (Binary64 × α)

namespace Line

def empty : Line α := ⟨[]⟩

def push (l : Line α) (cost : Binary64) (item : α) : Line α := ⟨l.entries ++ [(cost, item)]⟩

/-- Whether an entry costs no more than any of the line. -/
def isLeast (l : Line α) (e : Binary64 × α) : Bool := l.entries.all (noDearer e)

/-- Takes out the first of the entries that cost least. -/
def popMin? (l : Line α) : Option ((Binary64 × α) × Line α) :=
  (l.entries.find? l.isLeast).map fun e => (e, ⟨l.entries.eraseP l.isLeast⟩)

def retain (l : Line α) (keep : α → Bool) : Line α := ⟨l.entries.filter fun e => keep e.2⟩

def size (l : Line α) : Nat := l.entries.length

def isEmpty (l : Line α) : Bool := l.entries.isEmpty

/-- What a call returns and the line that it leaves. -/
def act (l : Line α) : Frontier.Call α → Option (Binary64 × α) × Line α
  | .push cost item => (none, l.push cost item)
  | .popMin =>
    match l.popMin? with
    | none => (none, l)
    | some (e, rest) => (some e, rest)
  | .retain keep => (none, l.retain keep)

/-- The entries in the order of their costs, and those of one cost in the order in which they came. -/
def sorted (l : Line α) : List (Binary64 × α) := l.entries.mergeSort noDearer

/-- What costs least and stands behind nothing as cheap is taken, and the others stay where they are. -/
theorem popMin?_eq {l : Line α} {earlier later : List (Binary64 × α)} {e : Binary64 × α}
    (split : l.entries = earlier ++ e :: later) (least : ∀ other ∈ l.entries, noDearer e other = true)
    (first : ∀ other ∈ earlier, ¬noDearer other e = true) : l.popMin? = some (e, ⟨earlier ++ later⟩) := by
  have isLeast_e : l.isLeast e = true := List.all_eq_true.mpr least
  have notLeast : ∀ other ∈ earlier, ¬l.isLeast other = true := by
    intro other member all
    exact first other member (List.all_eq_true.mp all e (split ▸ List.mem_append_right _ (List.mem_cons_self ..)))
  have found : l.entries.find? l.isLeast = some e := by
    refine List.find?_eq_some_iff_append.mpr ⟨isLeast_e, earlier, later, split, fun other member => ?_⟩
    rw [Bool.not_eq_true', ← Bool.not_eq_true]
    exact notLeast other member
  have left : l.entries.eraseP l.isLeast = earlier ++ later := by
    rw [split, List.eraseP_append_right _ notLeast, List.eraseP_cons_of_pos isLeast_e]
  rw [popMin?, found, left]
  rfl

end Line

namespace Frontier

/-- What a call returns and the frontier that it leaves. -/
def act (f : Frontier α) : Call α → Option (Binary64 × α) × Frontier α
  | .push cost item => (none, f.push cost item)
  | .popMin =>
    match f.popMin? with
    | none => (none, f)
    | some (e, rest) => (some e, rest)
  | .retain keep => (none, f.retain keep)

/-- An entry without its number. -/
def unnumbered (e : Binary64 × Nat × α) : Binary64 × α := (e.1, e.2.2)

/-- Those that arrived, without their numbers. -/
def line (arrivals : List (Binary64 × Nat × α)) : Line α := ⟨arrivals.map unnumbered⟩

/-- The entries of a frontier in the order in which they came, which is that of their numbers, so that the
cheapest entry with the least number is the first of the cheapest. -/
structure Arrivals (f : Frontier α) (arrivals : List (Binary64 × Nat × α)) : Prop where
  ordered : f.Ordered
  perm : arrivals.Perm f.entries
  numbered : arrivals.Pairwise fun a b => a.2.1 < b.2.1

variable {f g : Frontier α} {arrivals : List (Binary64 × Nat × α)} {cost : Binary64} {item : α}

theorem arrivals_empty : (empty : Frontier α).Arrivals [] := ⟨ordered_empty, .refl _, .nil⟩

/-- The next number is above those of all entries, so that what is pushed arrives last. -/
theorem Arrivals.push (arrived : f.Arrivals arrivals) (cost : Binary64) (item : α) :
    (f.push cost item).Arrivals (arrivals ++ [(cost, f.next, item)]) where
  ordered := arrived.ordered.push cost item
  perm := by
    have beside := (arrived.perm.cons (cost, f.next, item)).trans (arrived.ordered.perm_push cost item).symm
    exact (List.perm_append_singleton _ _).trans beside
  numbered := by
    refine List.pairwise_append.mpr ⟨arrived.numbered, List.pairwise_singleton .., fun a old b new => ?_⟩
    rw [List.mem_singleton.mp new]
    exact arrived.ordered.numbered a (arrived.perm.mem_iff.mp old)

theorem Arrivals.retain (arrived : f.Arrivals arrivals) (keep : α → Bool) :
    (f.retain keep).Arrivals (arrivals.filter fun e => keep e.2.2) where
  ordered := arrived.ordered.retain keep
  perm := arrived.perm.filter _
  numbered := arrived.numbered.filter _

/-- What is taken costs no more than any that arrived, and less than those that arrived before it. -/
theorem Arrivals.popMin (arrived : f.Arrivals arrivals) (taken : f.popMin? = some ((cost, item), g)) :
    ∃ earlier number later, arrivals = earlier ++ (cost, number, item) :: later ∧
      g.Arrivals (earlier ++ later) ∧ (∀ e ∈ arrivals, cost.rank ≤ e.1.rank) ∧
      ∀ e ∈ earlier, cost.rank < e.1.rank := by
  obtain ⟨orderedG, _⟩ := arrived.ordered.popMin taken
  obtain ⟨number, entries, above⟩ := arrived.ordered.first taken
  have perm := arrived.perm
  rw [entries] at perm
  obtain ⟨earlier, later, split⟩ := List.append_of_mem (perm.mem_iff.mpr (List.mem_cons_self ..))
  subst split
  have others := (List.perm_middle.symm.trans perm).cons_inv
  have numbered := arrived.numbered
  refine ⟨earlier, number, later, rfl, ⟨orderedG, others, ?_⟩, fun e member => ?_, fun e member => ?_⟩
  · exact numbered.sublist ((List.sublist_cons_self _ later).append_left earlier)
  · rcases List.mem_cons.mp (perm.mem_iff.mp member) with rfl | left
    · exact Int.le_refl _
    · have behind := before_iff.mp (above e left)
      dsimp only at behind
      omega
  · -- Its number is less than that of what is taken, so that only its cost can put it behind.
    have behind := before_iff.mp (above e (others.mem_iff.mp (List.mem_append_left _ member)))
    have sooner := (List.pairwise_append.mp numbered).2.2 e member _ (List.mem_cons_self ..)
    dsimp only at behind sooner
    omega

/-- The line takes what the frontier takes. -/
theorem Arrivals.popMin?_line (arrived : f.Arrivals arrivals) (taken : f.popMin? = some ((cost, item), g)) :
    ∃ left, g.Arrivals left ∧ (line arrivals).popMin? = some ((cost, item), line left) := by
  obtain ⟨earlier, number, later, split, left, least, first⟩ := arrived.popMin taken
  refine ⟨earlier ++ later, left, ?_⟩
  have shape : (line arrivals).entries = earlier.map unnumbered ++ (cost, item) :: later.map unnumbered := by
    rw [line, split, List.map_append]
    rfl
  have remains : line (earlier ++ later) = ⟨earlier.map unnumbered ++ later.map unnumbered⟩ :=
    congrArg Line.mk List.map_append
  rw [remains]
  refine Line.popMin?_eq shape (List.forall_mem_map.mpr fun e member => ?_)
    (List.forall_mem_map.mpr fun e member => ?_)
  · exact noDearer_iff.mpr (least e member)
  · rw [noDearer_iff, Int.not_le]
    exact first e member

/-- Every call returns from the line what it returns from the frontier. -/
theorem Arrivals.act (arrived : f.Arrivals arrivals) (call : Call α) :
    ∃ left, (f.act call).2.Arrivals left ∧ (line arrivals).act call = ((f.act call).1, line left) := by
  cases call with
  | push cost item =>
    refine ⟨_, arrived.push cost item, ?_⟩
    simp [Line.act, Line.push, Frontier.act, line, unnumbered]
  | retain keep =>
    refine ⟨_, arrived.retain keep, ?_⟩
    simp only [Line.act, Line.retain, Frontier.act, line, List.filter_map]
    rfl
  | popMin =>
    rw [Frontier.act, Line.act]
    cases taken : f.popMin? with
    | none =>
      refine ⟨arrivals, arrived, ?_⟩
      have perm := arrived.perm
      rw [popMin?_eq_none_iff.mp taken] at perm
      rw [perm.eq_nil]
      rfl
    | some next =>
      obtain ⟨⟨cost, item⟩, rest⟩ := next
      obtain ⟨left, arrived', pop⟩ := arrived.popMin?_line taken
      exact ⟨left, arrived', by rw [pop]⟩

theorem Arrivals.serve (arrived : f.Arrivals arrivals) (calls : List (Call α)) :
    ∃ left, (Call.serve Frontier.act f calls).2.Arrivals left ∧
      Call.serve Line.act (line arrivals) calls = ((Call.serve Frontier.act f calls).1, line left) := by
  induction calls generalizing f arrivals with
  | nil => exact ⟨arrivals, arrived, rfl⟩
  | cons call calls ih =>
    obtain ⟨next, arrivedNext, once⟩ := arrived.act call
    obtain ⟨left, arrivedLeft, onward⟩ := ih arrivedNext
    refine ⟨left, arrivedLeft, ?_⟩
    rw [Call.serve, once]
    dsimp only
    rw [onward]
    rfl

theorem next_act (f : Frontier α) (call : Call α) :
    (f.act call).2.next = f.next + if call.isPush then 1 else 0 := by
  cases call with
  | push cost item => rfl
  | retain keep => rfl
  | popMin =>
    rw [act]
    cases taken : f.popMin? with
    | none => rfl
    | some next =>
      obtain ⟨⟨cost, item⟩, rest⟩ := next
      obtain ⟨_, _, same⟩ := entries_of_popMin? taken
      exact same

/-- The next number is the count of entries pushed. -/
theorem next_serve (f : Frontier α) (calls : List (Call α)) :
    (Call.serve act f calls).2.next = f.next + calls.countP Call.isPush := by
  induction calls generalizing f with
  | nil => rfl
  | cons call calls ih =>
    rw [Call.serve]
    dsimp only
    rw [ih, next_act, List.countP_cons]
    omega

theorem drain_eq (f : Frontier α) : f.drain = f.entries.map unnumbered := by
  fun_induction drain f with
  | case1 f empty => rw [popMin?_eq_none_iff.mp empty, List.map_nil]
  | case2 f e rest taken ih =>
    obtain ⟨cost, item⟩ := e
    obtain ⟨number, entries, _⟩ := entries_of_popMin? taken
    rw [ih, entries, List.map_cons]
    rfl

/-- Sorted by cost alone, but stably, arrivals come in the order of cost and number. -/
theorem pairwise_before_mergeSort (numbered : arrivals.Pairwise fun a b => a.2.1 < b.2.1) :
    (arrivals.mergeSort noDearer).Pairwise fun a b => before a b = true := by
  induction arrivals with
  | nil => simp
  | cons e arrivals ih =>
    obtain ⟨later, rest⟩ := List.pairwise_cons.mp numbered
    obtain ⟨cheaper, others, whole, without, strictly⟩ :=
      List.mergeSort_cons noDearer_trans noDearer_total e arrivals
    have sorted := List.pairwise_mergeSort noDearer_trans noDearer_total (e :: arrivals)
    have ascending := ih rest
    rw [without, List.pairwise_append] at ascending
    rw [whole, List.pairwise_append, List.pairwise_cons] at sorted ⊢
    have fromE : ∀ b ∈ others, before e b = true := by
      intro b member
      have arrived : b ∈ arrivals := List.mem_mergeSort.mp (without ▸ List.mem_append_right _ member)
      have cost := noDearer_iff.mp (sorted.2.1.1 b member)
      have number := later b arrived
      exact before_iff.mpr (by omega)
    refine ⟨ascending.1, ⟨fromE, ascending.2.1⟩, fun a member b => ?_⟩
    rw [List.mem_cons]
    rintro (rfl | member')
    · have cost := strictly a member
      rw [Bool.not_eq_true', ← Bool.not_eq_true, noDearer_iff] at cost
      exact before_iff.mpr (.inl (by omega))
    · exact ascending.2.2 a member b member'

theorem Arrivals.drain_eq_sorted (arrived : f.Arrivals arrivals) : f.drain = (line arrivals).sorted := by
  have same : f.entries = arrivals.mergeSort noDearer := by
    refine ((List.mergeSort_perm ..).trans arrived.perm).symm.eq_of_pairwise (fun a b _ _ ab ba => ?_)
      arrived.ordered.ascending (pairwise_before_mergeSort arrived.numbered)
    rw [before_iff] at ab ba
    omega
  rw [drain_eq, same, Line.sorted, line]
  exact List.map_mergeSort fun _ _ _ _ => rfl

/-- Whatever is pushed, taken and dropped, in whatever order, a frontier returns what a line would from which the
first of the cheapest is taken; it has as many entries, and drained it gives the stable sort of the line by cost.
All entries have numbers of their own below the count of those pushed, so that no entry is put over another, and
fewer than 2^64 pushes need no number of more than 64 bits. -/
theorem serves_as_line (calls : List (Call α)) :
    ∃ returned f l, Call.serve act empty calls = (returned, f) ∧
      Call.serve Line.act Line.empty calls = (returned, l) ∧
      f.size = l.size ∧ f.isEmpty = l.isEmpty ∧ f.drain = l.sorted ∧
      f.next = calls.countP Call.isPush ∧ (f.entries.map (·.2.1)).Nodup ∧ ∀ e ∈ f.entries, e.2.1 < f.next := by
  obtain ⟨arrivals, arrived, asLine⟩ := arrivals_empty.serve calls
  have size : (Call.serve act empty calls).2.size = (line arrivals).size :=
    arrived.perm.symm.length_eq.trans (List.length_map _).symm
  have numbers : ((Call.serve act empty calls).2.entries.map (·.2.1)).Nodup := by
    refine (arrived.perm.map _).nodup_iff.mp (List.pairwise_map.mpr ?_)
    exact arrived.numbered.imp Nat.ne_of_lt
  refine ⟨_, _, line arrivals, rfl, asLine, size, ?_, arrived.drain_eq_sorted, ?_, numbers,
    arrived.ordered.numbered⟩
  · exact arrived.perm.symm.isEmpty_eq.trans List.isEmpty_map.symm
  · rw [next_serve]
    exact Nat.zero_add _

/-- A negative not-a-number is taken before all others and a positive one behind infinity, -0.0 before 0.0, and of
entries of one cost the one that came first. -/
example :
    let lowest := ofParts true 0x7FF8000000000000
    (Call.serve act empty [.push .nan 1, .push .zero 2, .push .infinity 3, .push .negativeZero 4, .push .zero 5,
      .push lowest 6, .popMin, .retain (· ≠ 5), .popMin, .push .zero 7, .popMin, .popMin, .popMin, .popMin,
      .popMin]).1 =
    [none, none, none, none, none, none, some (lowest, 6), none, some (.negativeZero, 4), none, some (.zero, 2),
      some (.zero, 7), some (.infinity, 3), some (.nan, 1), none] := by
  decide

end Frontier

end FeatureNet
