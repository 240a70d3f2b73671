import FeatureNet.Proofs.TreePaths

namespace FeatureNet

open Binary64 Network

theorem Edge.Leaves.ends {e : Edge} {u : FeatureId} (leaves : e.Leaves u) :
    e.source = u ∧ e.target = e.opposite u ∨ e.source = e.opposite u ∧ e.target = u := by
  unfold Edge.opposite
  by_cases atSource : u = e.source
  · rw [if_pos atSource]
    exact .inl ⟨atSource.symm, rfl⟩
  · rw [if_neg atSource]
    exact .inr ⟨rfl, (leaves.resolve_left atSource).2.symm⟩

theorem Network.not_infinite_lt {x y : Binary64} (cost : isCost x) (infinite : infiniteMagnitude ≤ x.magnitude) :
    ¬x < y := by
  rintro ⟨_, number, less⟩
  rw [signedMagnitude_of_isCost cost] at less
  have bound : y.magnitude ≤ infiniteMagnitude := by simpa [isNaN] using number
  unfold signedMagnitude at less
  split at less <;> omega

namespace Network

variable {n m : Network} {root target u v edge id : FeatureId} {e : Edge}

/-- An edge that can be part of a way: its cost is finite and neither of its ends is blocked. -/
def usable? (n : Network) (id : FeatureId) : Option Edge :=
  (n.edge? id).filter fun e => e.cost.isFinite && !n.isBlocked e.source && !n.isBlocked e.target

/-- The usable edges among those listed at a vertex. -/
def usableAt (n : Network) (v : FeatureId) : List FeatureId :=
  (n.outgoing v).filter fun id => (n.usable? id).isSome

/-- Networks of the same vertices that list the same usable edges in the same order. From a vertex that is
not blocked they are searched alike, down to the numbers of the entries in the frontier. -/
structure Alike (n m : Network) : Prop where
  vertices (v : FeatureId) : n.containsVertex v = m.containsVertex v
  edges (id : FeatureId) : n.usable? id = m.usable? id
  listed (v : FeatureId) : n.usableAt v = m.usableAt v

theorem usable?_eq_some :
    n.usable? id = some e ↔ n.edge? id = some e ∧ e.cost.isFinite = true ∧
      n.isBlocked e.source = false ∧ n.isBlocked e.target = false := by
  simp [usable?, Option.filter_eq_some_iff, and_assoc]

theorem usable?_of_leaves (found : n.edge? id = some e) (leaves : e.Leaves u)
    (finite : e.cost.isFinite = true) (free : n.isBlocked u = false)
    (across : n.isBlocked (e.opposite u) = false) : n.usable? id = some e := by
  refine usable?_eq_some.mpr ⟨found, finite, ?_⟩
  rcases leaves.ends with ⟨source, target⟩ | ⟨source, target⟩
  · rw [source, target]
    exact ⟨free, across⟩
  · rw [source, target]
    exact ⟨across, free⟩

theorem free_of_usable? (usable : n.usable? id = some e) (leaves : e.Leaves u) :
    n.isBlocked u = false ∧ n.isBlocked (e.opposite u) = false := by
  obtain ⟨_, _, source, target⟩ := usable?_eq_some.mp usable
  rcases leaves.ends with ⟨atSource, atTarget⟩ | ⟨atSource, atTarget⟩
  · exact ⟨atSource ▸ source, atTarget ▸ target⟩
  · exact ⟨atTarget ▸ target, atSource ▸ source⟩

end Network

namespace Search

variable {n m : Network} {s : Search} {root u edge : FeatureId} {d : Binary64}

/-- From an unblocked vertex nothing is offered over an edge that is not usable. -/
theorem relax_eq_self (formed : n.WellFormed) (cost : isCost d) (free : n.isBlocked u = false)
    (listed : edge ∈ n.outgoing u) (shut : n.usable? edge = none) (s : Search) :
    relax n u d s edge = s := by
  obtain ⟨e, found, leaves⟩ := formed.listed.mp listed
  unfold relax
  rw [found]
  refine if_neg ?_
  rintro ⟨_, less, across⟩
  cases finite : e.cost.isFinite with
  | true =>
    rw [usable?_of_leaves found leaves finite free across] at shut
    cases shut
  | false =>
    have costE := formed.cost found
    have infinite : infiniteMagnitude ≤ e.cost.magnitude := by simpa [isFinite] using finite
    exact not_infinite_lt (isCost_add cost costE)
      (Nat.le_trans infinite (magnitude_le_add_left cost costE)) less

/-- What an edge offers that is usable in two networks is the same in both. -/
theorem relax_congr {e : Edge} (usable : n.usable? edge = some e) (usable' : m.usable? edge = some e)
    (leaves : e.Leaves u) (d : Binary64) (s : Search) : relax n u d s edge = relax m u d s edge := by
  unfold relax
  rw [(usable?_eq_some.mp usable).1, (usable?_eq_some.mp usable').1]
  dsimp only
  rw [(free_of_usable? usable leaves).2, (free_of_usable? usable' leaves).2]

theorem visit_eq (formed : n.WellFormed) (cost : isCost d) (free : n.isBlocked u = false) (s : Search) :
    visit n s u d = (n.usableAt u).foldl (relax n u d) { s with visited := s.visited.insert u } := by
  unfold visit usableAt
  rw [List.foldl_filter]
  refine List.foldl_ext _ _ _ fun s edge listed => ?_
  split
  · rfl
  · next shut =>
    rw [Bool.not_eq_true, Option.isSome_eq_false_iff, Option.isNone_iff_eq_none] at shut
    exact relax_eq_self formed cost free listed shut s

theorem visit_congr (formed : n.WellFormed) (formed' : m.WellFormed) (alike : n.Alike m) (cost : isCost d)
    (free : n.isBlocked u = false) (free' : m.isBlocked u = false) (s : Search) :
    visit n s u d = visit m s u d := by
  rw [visit_eq formed cost free, visit_eq formed' cost free', ← alike.listed]
  refine List.foldl_ext _ _ _ fun s edge member => ?_
  obtain ⟨listed, usable⟩ := List.mem_filter.mp member
  obtain ⟨e, usable⟩ := Option.isSome_iff_exists.mp usable
  obtain ⟨e', found, leaves⟩ := formed.listed.mp listed
  have same := (usable?_eq_some.mp usable).1
  rw [found] at same
  cases same
  exact relax_congr usable (alike.edges edge ▸ usable) leaves d s

/-- Whatever waits in the frontier passes. -/
def Pools (passes : Binary64 → FeatureId → Prop) (s : Search) : Prop :=
  ∀ entry ∈ s.frontier.entries, passes entry.1 entry.2.2

/-- From what passes nothing is offered that does not. -/
def Offers (n : Network) (passes : Binary64 → FeatureId → Prop) : Prop :=
  ∀ ⦃d u id e⦄, passes d u → n.edge? id = some e → n.isBlocked (e.opposite u) = false →
    passes (d + e.cost) (e.opposite u)

section Pools

variable {passes passes' : Binary64 → FeatureId → Prop}

theorem pools_start (first : passes .zero root) : (Search.start root).Pools passes := by
  intro entry member
  rw [List.mem_singleton.mp (show entry ∈ [(Binary64.zero, 0, root)] from member)]
  exact first

theorem Pools.relax (offers : Offers n passes) (pools : s.Pools passes) (here : passes d u) (edge : FeatureId) :
    (Search.relax n u d s edge).Pools passes := by
  unfold Search.relax
  split
  · exact pools
  · next e found =>
    dsimp only
    split
    · next taken =>
      intro entry member
      rcases Frontier.eq_or_mem_of_mem_push member with rfl | old
      · exact offers here found taken.2.2
      · exact pools entry old
    · exact pools

theorem Pools.visit (offers : Offers n passes) (pools : s.Pools passes) (here : passes d u) :
    (Search.visit n s u d).Pools passes := by
  have visited : Pools passes { s with visited := s.visited.insert u } := pools
  unfold Search.visit
  generalize n.outgoing u = edges
  generalize ({ s with visited := s.visited.insert u } : Search) = s' at visited ⊢
  induction edges generalizing s' with
  | nil => exact visited
  | cons edge edges ih => exact ih _ (visited.relax offers here edge)

theorem Pools.take (pools : s.Pools passes) {frontier : Frontier FeatureId}
    (taken : s.frontier.popMin? = some ((d, u), frontier)) :
    passes d u ∧ Pools passes { s with frontier } := by
  obtain ⟨number, entries, _⟩ := Frontier.entries_of_popMin? taken
  refine ⟨pools (d, number, u) (entries ▸ List.mem_cons_self ..), fun entry member => pools entry ?_⟩
  exact entries ▸ List.mem_cons_of_mem _ member

/-- Two networks are searched alike if they are at every visit of what passes in both. -/
theorem run_congr_of (offers : Offers n passes) (offers' : Offers m passes')
    (visits : ∀ s d u, passes d u → passes' d u → visit n s u d = visit m s u d)
    {s : Search} (pools : s.Pools passes) (pools' : s.Pools passes') : run n s = run m s := by
  fun_induction Search.run n s with
  | case1 s empty =>
    rw [Search.run]
    split
    · rfl
    · next taken => cases empty.symm.trans taken
  | case2 s distance u frontier taken stale ih =>
    rw [ih (pools.take taken).2 (pools'.take taken).2, Search.run.eq_def m s]
    split
    · next none => cases none.symm.trans taken
    · next taken' =>
      cases taken.symm.trans taken'
      rw [dif_pos stale]
  | case3 s distance u frontier taken fresh ih =>
    obtain ⟨here, rest⟩ := pools.take taken
    obtain ⟨here', rest'⟩ := pools'.take taken
    have same := visits { s with frontier } _ _ here here'
    rw [ih (rest.visit offers here) (same ▸ rest'.visit offers' here'), same, Search.run.eq_def m s]
    split
    · next none => cases none.symm.trans taken
    · next taken' =>
      cases taken.symm.trans taken'
      rw [dif_neg fresh]

end Pools

/-- What waits in the frontier is unblocked and waits at a cost. -/
def Clear (n : Network) (s : Search) : Prop :=
  ∀ entry ∈ s.frontier.entries, isCost entry.1 ∧ n.isBlocked entry.2.2 = false

theorem clear_start (free : n.isBlocked root = false) : (Search.start root).Clear n := by
  have pools : (Search.start root).Pools fun d u => isCost d ∧ n.isBlocked u = false :=
    pools_start ⟨isCost_zero, free⟩
  exact pools

/-- A search goes alike on networks that are alike. -/
theorem run_congr (formed : n.WellFormed) (formed' : m.WellFormed) (alike : n.Alike m) {s : Search}
    (clear : s.Clear n) (clear' : s.Clear m) : run n s = run m s := by
  have offers {n : Network} (formed : n.WellFormed) : Offers n fun d u => isCost d ∧ n.isBlocked u = false :=
    fun _ _ _ _ here found free => ⟨isCost_add here.1 (formed.cost found), free⟩
  refine run_congr_of (offers formed) (offers formed') (fun s d u here here' => ?_) clear clear'
  exact visit_congr formed formed' alike here.1 here.2 here'.2 s

end Search

namespace PathTree.Spans

variable {n m : Network} {root v : FeatureId} {order : List FeatureId} {t : PathTree} {d : Binary64}

/-- A tree with an unblocked root reaches no blocked vertex, -/
theorem free (spans : t.Spans n root order) (free : n.isBlocked root = false)
    (atV : t.distance? v = some d) : n.isBlocked v = false := by
  by_cases same : v = root
  · exact same ▸ free
  · obtain ⟨_, _, _, _, step⟩ := spans.parent atV same
    exact step.free

/-- and none over an edge that is not usable. -/
theorem usable (formed : n.WellFormed) (spans : t.Spans n root order) (free : n.isBlocked root = false)
    (atV : t.distance? v = some d) (notRoot : v ≠ root) :
    ∃ edge e, t.predecessor? v = some (some edge) ∧ n.usable? edge = some e := by
  obtain ⟨u, edge, e, du, step⟩ := spans.parent atV notRoot
  obtain ⟨f, found, leaves⟩ := formed.listed.mp step.listed
  rw [step.found] at found
  cases found
  have below := magnitude_le_add_left (spans.isCost_distance step.distance) (formed.cost step.found)
  rw [← step.sum] at below
  have finite := isFinite_iff.mpr (Nat.lt_of_le_of_lt below (spans.walked atV).1)
  refine ⟨edge, e, step.predecessor, usable?_of_leaves step.found leaves finite ?_ ?_⟩
  · exact spans.free free step.distance
  · rw [step.across]
    exact step.free

end PathTree.Spans

namespace Network

variable {n m : Network} {root : FeatureId}

theorem stepsBack_congr {t : PathTree} (same : ∀ v edge, v ≠ root → t.predecessor? v = some (some edge) →
      (n.edge? edge).map (·.opposite v) = (m.edge? edge).map (·.opposite v)) (left : Nat) (v : FeatureId) :
    n.stepsBack t root left v = m.stepsBack t root left v := by
  induction left generalizing v with
  | zero => rfl
  | succ left ih =>
    unfold stepsBack
    split
    · rfl
    · next notRoot =>
      cases reached : t.predecessor? v with
      | none => rfl
      | some edge? =>
        cases edge? with
        | none => rfl
        | some edge =>
          have across := same v edge notRoot reached
          simp only [Option.bind_eq_bind, Option.bind_some]
          cases found : n.edge? edge <;> cases found' : m.edge? edge <;> rw [found, found'] at across
          · rfl
          · cases across
          · cases across
          · simp only [Option.bind_some, Option.some.inj across, ih]

/-- Networks that are alike have the same trees, -/
theorem Alike.cheapestTree (formed : n.WellFormed) (formed' : m.WellFormed) (alike : n.Alike m)
    (free : n.isBlocked root = false) (free' : m.isBlocked root = false) :
    n.cheapestTree root = m.cheapestTree root := by
  unfold Network.cheapestTree
  rw [alike.vertices, Search.run_congr formed formed' alike (Search.clear_start free)
    (Search.clear_start free')]

/-- and the same cheapest paths. -/
theorem Alike.cheapestPath (formed : n.WellFormed) (formed' : m.WellFormed) (alike : n.Alike m)
    (free : n.isBlocked root = false) (free' : m.isBlocked root = false) (target : FeatureId) :
    n.cheapestPath root target = m.cheapestPath root target := by
  unfold Network.cheapestPath
  rw [← alike.cheapestTree formed formed' free free']
  cases known : n.containsVertex root with
  | false =>
    rw [Network.cheapestTree, known]
    rfl
  | true =>
    obtain ⟨order, spans⟩ := exists_spans formed known
    unfold pathTo
    rw [spans.root_eq]
    dsimp only
    rw [stepsBack_congr (fun v edge notRoot reached => ?_) _ target]
    have contained : (n.cheapestTree root).contains v = true := by
      rw [PathTree.contains_eq, reached]
      rfl
    obtain ⟨d, atV⟩ := spans.reached.mp (spans.contains.mp contained)
    obtain ⟨edge', e, reached', usable⟩ := spans.usable formed free atV notRoot
    rw [reached] at reached'
    cases reached'
    rw [(usable?_eq_some.mp usable).1, (usable?_eq_some.mp (alike.edges edge ▸ usable)).1]

end Network

end FeatureNet
