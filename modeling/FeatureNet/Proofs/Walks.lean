import FeatureNet.Proofs.BuiltNetworks
import Mathlib.Data.List.Chain
import Mathlib.Data.List.Nodup

namespace FeatureNet

open Binary64 Network

theorem Edge.eq_opposite {e : Edge} {u : FeatureId} (leaves : e.Leaves u) :
    e.opposite (e.opposite u) = u := by
  unfold opposite
  rcases leaves with atSource | ⟨_, atTarget⟩
  · by_cases loop : e.target = e.source <;> simp [atSource, loop]
  · by_cases loop : e.target = e.source <;> simp [atTarget, loop]

namespace Network

/-- A step over an edge that is listed at a vertex, to the edge's other end. -/
def Crosses (n : Network) (u : FeatureId) (s : Step) : Prop :=
  ∃ edge e, s.edge = some edge ∧ edge ∈ n.outgoing u ∧ n.edge? edge = some e ∧ e.opposite u = s.vertex

/-- The walks from a vertex: the steps after it, where they end, and what they cost, added up one after
another from zero. No step enters a blocked vertex; the vertex that a walk begins at may be blocked. -/
inductive Walk (n : Network) (root : FeatureId) : List Step → FeatureId → Binary64 → Prop
  | here : Walk n root [] root .zero
  | on {steps u total edge e} : Walk n root steps u total →
      edge ∈ n.outgoing u → n.edge? edge = some e → n.isBlocked (e.opposite u) = false →
      Walk n root (steps ++ [⟨e.opposite u, some edge⟩]) (e.opposite u) (total + e.cost)

/-- The vertex reached by steps from another. -/
def lastVertex (root : FeatureId) (steps : List Step) : FeatureId :=
  (steps.getLast?.map (·.vertex)).getD root

@[simp] theorem lastVertex_nil (root : FeatureId) : lastVertex root [] = root := rfl

@[simp] theorem lastVertex_concat (root : FeatureId) (steps : List Step) (s : Step) :
    lastVertex root (steps ++ [s]) = s.vertex := by simp [lastVertex]

/-- The costs of the edges of steps, in order. -/
def stepCosts (n : Network) (steps : List Step) : List Binary64 :=
  (steps.filterMap (·.edge)).filterMap n.edgeCost?

@[simp] theorem stepCosts_append (n : Network) (a b : List Step) :
    n.stepCosts (a ++ b) = n.stepCosts a ++ n.stepCosts b := by simp [stepCosts]

variable {n : Network} {root v : FeatureId} {steps : List Step} {total : Binary64}

theorem WellFormed.costs (formed : n.WellFormed) {steps : List Step} {cost : Binary64}
    (member : cost ∈ n.stepCosts steps) : isCost cost := by
  obtain ⟨edge, _, found⟩ := List.mem_filterMap.mp member
  obtain ⟨e, atEdge, rfl⟩ := Option.map_eq_some_iff.mp found
  exact formed.cost atEdge

theorem Walk.isCost_total (formed : n.WellFormed) (walk : n.Walk root steps v total) : isCost total := by
  induction walk with
  | here => exact isCost_zero
  | on _ _ found _ ih => exact isCost_add ih (formed.cost found)

theorem Walk.lastVertex (walk : n.Walk root steps v total) : Network.lastVertex root steps = v := by
  cases walk with
  | here => rfl
  | on => exact lastVertex_concat ..

theorem Walk.unblocked (walk : n.Walk root steps v total) :
    ∀ s ∈ steps, n.isBlocked s.vertex = false := by
  induction walk with
  | here => simp
  | on _ _ _ free ih =>
    intro s member
    rcases List.mem_append.mp member with old | new
    · exact ih s old
    · rw [List.mem_singleton.mp new]
      exact free

theorem getLast?_cons_lastVertex (root : FeatureId) (x : Option FeatureId) (steps : List Step) {s : Step}
    (last : s ∈ (⟨root, x⟩ :: steps).getLast?) : s.vertex = lastVertex root steps := by
  cases steps using List.reverseRecOn with
  | nil =>
    rw [List.getLast?_singleton] at last
    rw [← Option.some.inj last, lastVertex_nil]
  | append_singleton steps t =>
    rw [← List.cons_append, List.getLast?_concat] at last
    rw [lastVertex_concat, ← Option.some.inj last]

theorem Walk.isChain (walk : n.Walk root steps v total) (x : Option FeatureId) :
    (⟨root, x⟩ :: steps).IsChain fun a b => n.Crosses a.vertex b := by
  induction walk with
  | here => exact List.isChain_singleton _
  | @on steps u total edge e walk listed found _ ih =>
    rw [← List.cons_append]
    refine ih.append (List.isChain_singleton _) fun a last b first => ?_
    have end_ := getLast?_cons_lastVertex root x steps last
    rw [walk.lastVertex] at end_
    rw [List.head?_cons, Option.mem_some_iff] at first
    subst first
    exact ⟨edge, e, rfl, end_ ▸ listed, found, end_ ▸ rfl⟩

/-- Steps that cross listed edges one after another and enter no blocked vertex are a walk. -/
theorem exists_walk {x : Option FeatureId}
    (chain : (⟨root, x⟩ :: steps).IsChain fun a b => n.Crosses a.vertex b)
    (free : ∀ s ∈ steps, n.isBlocked s.vertex = false) :
    ∃ total, n.Walk root steps (lastVertex root steps) total := by
  induction steps using List.reverseRecOn with
  | nil => exact ⟨_, .here⟩
  | append_singleton steps s ih =>
    rw [← List.cons_append, List.isChain_append] at chain
    obtain ⟨before, _, joint⟩ := chain
    obtain ⟨total, walk⟩ := ih before fun t member => free t (List.mem_append_left _ member)
    obtain ⟨last, atLast⟩ : ∃ last, last ∈ (⟨root, x⟩ :: steps).getLast? :=
      ⟨_, List.getLast?_eq_some_getLast (List.cons_ne_nil _ _)⟩
    have crosses := joint last atLast s rfl
    rw [getLast?_cons_lastVertex root x steps atLast] at crosses
    obtain ⟨edge, e, atEdge, listed, found, across⟩ := crosses
    have same : s = ⟨e.opposite (lastVertex root steps), some edge⟩ := by
      cases s
      cases atEdge
      cases across
      rfl
    subst same
    rw [lastVertex_concat]
    exact ⟨_, walk.on listed found (free _ (List.mem_concat_self ..))⟩

/-- The cost of a walk is the sum of its steps' costs in order, from zero. -/
theorem Walk.total_eq (walk : n.Walk root steps v total) :
    total = (n.stepCosts steps).foldl (· + ·) .zero := by
  induction walk with
  | here => rfl
  | @on steps u total edge e _ _ found _ ih =>
    have last : n.stepCosts [⟨e.opposite u, some edge⟩] = [e.cost] := by
      simp [stepCosts, edgeCost?, found]
    rw [stepCosts_append, last, List.foldl_concat, ← ih]

/-- Sums from starts of one magnitude have one magnitude. -/
theorem magnitude_foldl_congr {costs : List Binary64} (each : ∀ c ∈ costs, isCost c) {x y : Binary64}
    (costX : isCost x) (costY : isCost y) (same : x.magnitude = y.magnitude) :
    (costs.foldl (· + ·) x).magnitude = (costs.foldl (· + ·) y).magnitude := by
  induction costs generalizing x y with
  | nil => exact same
  | cons c rest ih =>
    have costC := each c (List.mem_cons_self ..)
    refine ih (fun d member => each d (List.mem_cons_of_mem _ member)) (isCost_add costX costC)
      (isCost_add costY costC) ?_
    rw [(add_parts costX costC).1, (add_parts costY costC).1, units, same, ← units]

theorem isCost_foldl {costs : List Binary64} (each : ∀ c ∈ costs, isCost c) {x : Binary64}
    (costX : isCost x) : isCost (costs.foldl (· + ·) x) := by
  induction costs generalizing x with
  | nil => exact costX
  | cons c rest ih =>
    exact ih (fun d member => each d (List.mem_cons_of_mem _ member))
      (isCost_add costX (each c (List.mem_cons_self ..)))

theorem pathCost_eq (n : Network) (p : Path) :
    n.pathCost p = (n.stepCosts p.steps).foldl (· + ·) negativeZero := rfl

theorem WellFormed.isCost_pathCost (formed : n.WellFormed) (p : Path) : isCost (n.pathCost p) :=
  isCost_foldl (fun _ member => formed.costs member) isCost_negativeZero

theorem WellFormed.pathCost_le_iff (formed : n.WellFormed) {p q : Path} :
    n.pathCost p ≤ n.pathCost q ↔ (n.pathCost p).magnitude ≤ (n.pathCost q).magnitude :=
  le_iff_magnitude (formed.isCost_pathCost p) (formed.isCost_pathCost q)

theorem WellFormed.magnitude_pathCost_of_rank (formed : n.WellFormed) {p q : Path}
    (le : (n.pathCost p).rank ≤ (n.pathCost q).rank) :
    (n.pathCost p).magnitude ≤ (n.pathCost q).magnitude :=
  magnitude_le_of_rank_le (formed.isCost_pathCost p) (formed.isCost_pathCost q) le

/-- A path costs what the walk behind its first step costs, but for the sign of a zero. -/
theorem Walk.magnitude_pathCost (formed : n.WellFormed) (walk : n.Walk root steps v total) :
    (n.pathCost ⟨⟨root, none⟩ :: steps⟩).magnitude = total.magnitude := by
  have costs : n.stepCosts (⟨root, none⟩ :: steps) = n.stepCosts steps := rfl
  rw [pathCost_eq, walk.total_eq, costs]
  exact magnitude_foldl_congr (fun _ member => formed.costs member) isCost_negativeZero isCost_zero
    (by decide)

/-- A network of the same lists with nothing new to take: what was blocked is blocked, and edges of finite
cost are as they were. -/
structure Narrows (n m : Network) : Prop where
  vertices (v : FeatureId) : m.containsVertex v = n.containsVertex v
  outgoing (v : FeatureId) : m.outgoing v = n.outgoing v
  blocked {v : FeatureId} : n.isBlocked v = true → m.isBlocked v = true
  edges {id e} : m.edge? id = some e → e.cost.magnitude < infiniteMagnitude → n.edge? id = some e

variable {m k : Network}

theorem Narrows.trans (first : n.Narrows m) (second : m.Narrows k) : n.Narrows k where
  vertices v := (second.vertices v).trans (first.vertices v)
  outgoing v := (second.outgoing v).trans (first.outgoing v)
  blocked before := second.blocked (first.blocked before)
  edges found finite := first.edges (second.edges found finite) finite

theorem Narrows.free (narrows : n.Narrows m) (free : m.isBlocked v = false) : n.isBlocked v = false := by
  cases blocked : n.isBlocked v with
  | false => rfl
  | true =>
    rw [narrows.blocked blocked] at free
    cases free

/-- A walk of finite cost in the narrower network is a walk over edges of finite cost. -/
theorem Narrows.walk (narrows : n.Narrows m) (formed' : m.WellFormed) (walk : m.Walk root steps v total)
    (finite : total.magnitude < infiniteMagnitude) :
    n.Walk root steps v total ∧ ∀ s ∈ steps, ∀ edge, s.edge = some edge →
      ∃ e, m.edge? edge = some e ∧ e.cost.magnitude < infiniteMagnitude := by
  induction walk with
  | here => exact ⟨.here, fun s member => absurd member List.not_mem_nil⟩
  | @on steps u total edge e walk listed found free ih =>
    have costU := walk.isCost_total formed'
    have costE := formed'.cost found
    have before := magnitude_le_add costU costE
    have edgeCost : e.cost.magnitude < infiniteMagnitude :=
      Nat.lt_of_le_of_lt (magnitude_le_add_left costU costE) finite
    obtain ⟨inside, taken⟩ := ih (Nat.lt_of_le_of_lt before finite)
    refine ⟨inside.on (narrows.outgoing u ▸ listed) (narrows.edges found edgeCost) (narrows.free free),
      fun s member edge' atS => ?_⟩
    rcases List.mem_append.mp member with old | new
    · exact taken s old edge' atS
    · rw [List.mem_singleton.mp new] at atS
      cases atS
      exact ⟨e, found, edgeCost⟩

end Network

end FeatureNet
