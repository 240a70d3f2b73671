import FeatureNet.Proofs.BlockedVertices
import FeatureNet.Proofs.ServedVertices
import FeatureNet.Proofs.TreePaths

namespace FeatureNet

open Binary64 Network

/-- One number, the two zeros being one. -/
def Binary64.Same (x y : Binary64) : Prop := x = y ∨ x.magnitude = 0 ∧ y.magnitude = 0

instance (x y : Binary64) : Decidable (x.Same y) := inferInstanceAs (Decidable (_ ∨ _))

namespace Binary64.Same

variable {x y z : Binary64}

theorem symm (same : x.Same y) : y.Same x := same.imp Eq.symm And.symm

theorem magnitude (same : x.Same y) : x.magnitude = y.magnitude := by
  rcases same with rfl | ⟨zero, zero'⟩
  · rfl
  · rw [zero, zero']

end Binary64.Same

/-- Numbers have one pattern in a fingerprint exactly if they are the same. -/
theorem Binary64.foldedBits_eq_iff {x y : Binary64} : x.foldedBits = y.foldedBits ↔ x.Same y := by
  have zero {z : Binary64} : z.bits = 0 → z.magnitude = 0 := fun none => by rw [magnitude, none]; rfl
  have bits {x y : Binary64} : x.bits = y.bits → x = y := fun equal => by cases x; cases y; cases equal; rfl
  unfold foldedBits Same
  constructor
  · intro equal
    split at equal
    · next zeroX =>
      split at equal
      · next zeroY => exact .inr ⟨zeroX, zeroY⟩
      · exact .inr ⟨zeroX, zero equal.symm⟩
    · split at equal
      · next zeroY => exact .inr ⟨zero equal, zeroY⟩
      · exact .inl (bits equal)
  · rintro (rfl | ⟨zeroX, zeroY⟩)
    · rfl
    · rw [if_pos zeroX, if_pos zeroY]

/-- Edges that run alike at the same cost. -/
structure Edge.Agrees (e f : Edge) : Prop where
  id : e.id = f.id
  source : e.source = f.source
  target : e.target = f.target
  bidirectional : e.bidirectional = f.bidirectional
  cost : e.cost.Same f.cost

instance (e f : Edge) : Decidable (e.Agrees f) :=
  decidable_of_iff (e.id = f.id ∧ e.source = f.source ∧ e.target = f.target ∧
      e.bidirectional = f.bidirectional ∧ e.cost.Same f.cost)
    ⟨fun ⟨id, source, target, bidirectional, cost⟩ => ⟨id, source, target, bidirectional, cost⟩,
      fun agrees => ⟨agrees.id, agrees.source, agrees.target, agrees.bidirectional, agrees.cost⟩⟩

namespace Edge.Agrees

variable {e f : Edge} {v : FeatureId}

theorem symm (agrees : e.Agrees f) : f.Agrees e :=
  ⟨agrees.id.symm, agrees.source.symm, agrees.target.symm, agrees.bidirectional.symm, agrees.cost.symm⟩

theorem leaves (agrees : e.Agrees f) : e.Leaves v ↔ f.Leaves v := by
  unfold Leaves
  rw [agrees.source, agrees.target, agrees.bidirectional]

theorem opposite (agrees : e.Agrees f) : e.opposite v = f.opposite v := by
  unfold Edge.opposite
  rw [agrees.source, agrees.target]

end Edge.Agrees

/-- Networks of the same vertices and blocked vertices, and of edges that are alike. Nothing is said of the
lists of edges. -/
structure Network.AgreesIn (n : Network) (alike : Edge → Edge → Prop) (m : Network) : Prop where
  vertices (v : FeatureId) : n.containsVertex v = m.containsVertex v
  blocked (v : FeatureId) : n.isBlocked v = m.isBlocked v
  edges (id : FeatureId) : Option.Rel alike (n.edge? id) (m.edge? id)

abbrev Network.Agrees (n m : Network) : Prop := n.AgreesIn Edge.Agrees m

namespace Network

variable {n m : Network} {root v : FeatureId} {steps : List Step} {total : Binary64}

theorem Agrees.exists_edge (agrees : n.Agrees m) {id : FeatureId} {e : Edge} (found : n.edge? id = some e) :
    ∃ f, m.edge? id = some f ∧ e.Agrees f := by
  rcases rel_cases (agrees.edges id) with ⟨none, _⟩ | ⟨e', f, found', other, same⟩
  · rw [none] at found
    cases found
  · rw [found'] at found
    cases found
    exact ⟨f, other, same⟩

theorem Agrees.symm (agrees : n.Agrees m) : m.Agrees n where
  vertices v := (agrees.vertices v).symm
  blocked v := (agrees.blocked v).symm
  edges id := by
    rcases rel_cases (agrees.edges id) with ⟨none, none'⟩ | ⟨e, f, found, found', same⟩
    · rw [none, none']
      exact .none
    · rw [found, found']
      exact .some same.symm

/-- Whether networks agree shows in the lists of what they have. -/
theorem agreesIn_iff {alike : Edge → Edge → Prop} :
    n.AgreesIn alike m ↔ n.vertices.keys = m.vertices.keys ∧ n.blockedVertices = m.blockedVertices ∧
      n.edges.keys = m.edges.keys ∧ List.Forall₂ alike n.edges.values m.edges.values := by
  rw [← IdMap.rel_get?_iff]
  constructor
  · intro agrees
    exact ⟨IdMap.keys_congr agrees.vertices, blockedVertices_congr agrees.blocked, agrees.edges⟩
  · rintro ⟨vertices, blocked, edges⟩
    refine ⟨fun v => ?_, fun v => ?_, edges⟩
    · rw [Bool.eq_iff_iff, containsVertex, containsVertex, IdMap.contains_iff_mem_keys,
        IdMap.contains_iff_mem_keys, vertices]
    · rw [Bool.eq_iff_iff, ← mem_blockedVertices, ← mem_blockedVertices, blocked]

instance (alike : Edge → Edge → Prop) [∀ e f, Decidable (alike e f)] (n m : Network) :
    Decidable (n.AgreesIn alike m) := decidable_of_iff _ agreesIn_iff.symm

/-- They list the same edges at a vertex. -/
theorem Agrees.listed (formed : n.WellFormed) (formed' : m.WellFormed) (agrees : n.Agrees m) {edge : FeatureId}
    (listed : edge ∈ n.outgoing v) : edge ∈ m.outgoing v := by
  obtain ⟨e, found, leaves⟩ := formed.listed.mp listed
  obtain ⟨f, found', same⟩ := agrees.exists_edge found
  exact formed'.listed.mpr ⟨f, found', same.leaves.mp leaves⟩

/-- What an edge leads to in one network it leads to in the other. -/
theorem Agrees.crosses (formed : n.WellFormed) (formed' : m.WellFormed) (agrees : n.Agrees m)
    {u edge : FeatureId} {e : Edge} (listed : edge ∈ n.outgoing u) (found : n.edge? edge = some e)
    (free : n.isBlocked (e.opposite u) = false) :
    ∃ f, edge ∈ m.outgoing u ∧ m.edge? edge = some f ∧ e.opposite u = f.opposite u ∧
      m.isBlocked (f.opposite u) = false ∧ e.cost.Same f.cost := by
  obtain ⟨f, found', same⟩ := agrees.exists_edge found
  refine ⟨f, agrees.listed formed formed' listed, found', same.opposite, ?_, same.cost⟩
  rwa [← agrees.blocked, ← same.opposite]

theorem Agrees.served (formed : n.WellFormed) (formed' : m.WellFormed) (agrees : n.Agrees m) {seeds : IdSet}
    (served : n.Served seeds v) : m.Served seeds v := by
  induction served with
  | seed member => exact .seed member
  | on _ listed found free ih =>
    obtain ⟨f, listed', found', across, free', _⟩ := agrees.crosses formed formed' listed found free
    rw [across]
    exact ih.on listed' found' free'

theorem Agrees.mem_reach (formed : n.WellFormed) (formed' : m.WellFormed) (agrees : n.Agrees m) {seeds : IdSet}
    {edge : FeatureId} (reached : edge ∈ n.reach seeds) : edge ∈ m.reach seeds := by
  obtain ⟨u, served, listed, known⟩ := mem_reach_iff.mp reached
  obtain ⟨e, found⟩ := Option.isSome_iff_exists.mp known
  obtain ⟨f, found', _⟩ := agrees.exists_edge found
  exact mem_reach_iff.mpr ⟨u, agrees.served formed formed' served, agrees.listed formed formed' listed,
    Option.isSome_iff_exists.mpr ⟨f, found'⟩⟩

/-- To a number that is not negative the two zeros add the same. -/
theorem add_congr {x y z : Binary64} (costX : isCost x) (positive : x.negative = false) (costY : isCost y)
    (costZ : isCost z) (same : y.Same z) : x + y = x + z := by
  obtain ⟨magnitude, sign⟩ := add_parts costX costY
  obtain ⟨magnitude', sign'⟩ := add_parts costX costZ
  apply ext_parts
  · rw [sign, sign', positive, Bool.false_and, Bool.false_and]
  · rw [magnitude, magnitude', units, units, units, same.magnitude]

/-- A sum from zero on is never the negative zero. -/
theorem Walk.positive (formed : n.WellFormed) (walk : n.Walk root steps v total) : total.negative = false := by
  induction walk with
  | here => decide
  | on walk _ found _ ih =>
    rw [(add_parts (walk.isCost_total formed) (formed.cost found)).2, ih, Bool.false_and]

/-- A walk through one network is a walk through the other, at the very same cost. -/
theorem Agrees.walk (formed : n.WellFormed) (formed' : m.WellFormed) (agrees : n.Agrees m)
    (walk : n.Walk root steps v total) : m.Walk root steps v total := by
  induction walk with
  | here => exact .here
  | @on steps u total edge e walk listed found free ih =>
    obtain ⟨f, listed', found', across, free', same⟩ := agrees.crosses formed formed' listed found free
    have sum : total + e.cost = total + f.cost :=
      add_congr (walk.isCost_total formed) (walk.positive formed) (formed.cost found) (formed'.cost found') same
    rw [across, sum]
    exact ih.on listed' found' free'

/-- The least cost of a walk to a vertex is one number, whichever tree has found it. -/
theorem Agrees.distance? (formed : n.WellFormed) (formed' : m.WellFormed) (agrees : n.Agrees m)
    {t t' : PathTree} {order order' : List FeatureId} (spans : t.Spans n root order)
    (spans' : t'.Spans m root order') {d : Binary64} (atV : t.distance? v = some d) :
    t'.distance? v = some d := by
  obtain ⟨finite, positive, steps, walk⟩ := spans.walked atV
  obtain ⟨_, d', atV', le⟩ := spans'.least formed' (agrees.walk formed formed' walk) finite
  obtain ⟨finite', positive', steps', walk'⟩ := spans'.walked atV'
  obtain ⟨_, d'', atV'', le'⟩ := spans.least formed (agrees.symm.walk formed' formed walk') finite'
  rw [atV] at atV''
  cases atV''
  rw [atV', ext_parts (positive'.trans positive.symm) (Nat.le_antisymm le le')]

/-- The trees of a vertex reach the same vertices at the same distances. -/
theorem Agrees.distances (formed : n.WellFormed) (formed' : m.WellFormed) (agrees : n.Agrees m)
    (root : FeatureId) :
    (n.cheapestTree root).distances = (m.cheapestTree root).distances ∧
      ∀ v, (n.cheapestTree root).contains v = (m.cheapestTree root).contains v := by
  cases known : n.containsVertex root with
  | false =>
    have known' := agrees.vertices root ▸ known
    rw [Network.cheapestTree, Network.cheapestTree, known, known']
    exact ⟨rfl, fun _ => rfl⟩
  | true =>
    obtain ⟨order, spans⟩ := exists_spans formed known
    obtain ⟨order', spans'⟩ := exists_spans formed' (agrees.vertices root ▸ known)
    have same (v : FeatureId) : (n.cheapestTree root).distance? v = (m.cheapestTree root).distance? v :=
      Option.ext fun d => ⟨agrees.distance? formed formed' spans spans',
        agrees.symm.distance? formed' formed spans' spans⟩
    refine ⟨IdMap.ext_get? same, fun v => ?_⟩
    rw [Bool.eq_iff_iff, spans.contains, spans'.contains, spans.reached, spans'.reached, same]

/-- Between two vertices both networks have a cheapest path or none has one, -/
theorem Agrees.cheapestPath_le (formed : n.WellFormed) (formed' : m.WellFormed) (agrees : n.Agrees m)
    (source target : FeatureId) :
    n.cheapestPath source target = .empty ∧ m.cheapestPath source target = .empty ∨
      n.cheapestPath source target ≠ .empty ∧ m.cheapestPath source target ≠ .empty ∧
        n.pathCost (n.cheapestPath source target) ≤ m.pathCost (m.cheapestPath source target) := by
  cases known : n.containsVertex source with
  | false =>
    have known' := agrees.vertices source ▸ known
    rw [Network.cheapestPath, Network.cheapestPath, Network.cheapestTree, Network.cheapestTree, known, known']
    exact .inl ⟨rfl, rfl⟩
  | true =>
    have known' := agrees.vertices source ▸ known
    rcases cheapestPath_cases formed known target with
      ⟨steps, total, path, walk, _, finite, least⟩ | ⟨path, unreached⟩
    · rcases cheapestPath_cases formed' known' target with
        ⟨steps', total', path', walk', _⟩ | ⟨_, unreached⟩
      · rw [path, path']
        refine .inr ⟨by simp [Path.empty], by simp [Path.empty], ?_⟩
        rw [le_iff_magnitude (formed.isCost_pathCost _) (formed'.isCost_pathCost _),
          walk.magnitude_pathCost formed, walk'.magnitude_pathCost formed']
        exact least _ _ (agrees.symm.walk formed' formed walk')
      · have dear := unreached _ _ (agrees.walk formed formed' walk)
        omega
    · rcases cheapestPath_cases formed' known' target with
        ⟨steps', total', _, walk', _, finite', _⟩ | ⟨path', _⟩
      · have dear := unreached _ _ (agrees.symm.walk formed' formed walk')
        omega
      · exact .inl ⟨path, path'⟩

/-- Networks of the same content have the same walks, so they answer alike but for the choice among
equally cheap ways, in whatever order their edges are listed: trees reach the same vertices at the same
distances, pattern for pattern, the same edges are reached from any seeds, and cheapest paths exist for
the same ends and cost the same number. -/
theorem agreeing_answers (built : n.Built) (built' : m.Built) (agrees : n.Agrees m) :
    (∀ root, (n.cheapestTree root).distances = (m.cheapestTree root).distances ∧
        ∀ v, (n.cheapestTree root).contains v = (m.cheapestTree root).contains v) ∧
      (∀ seeds, n.reach seeds = m.reach seeds) ∧
      ∀ source target,
        n.cheapestPath source target = .empty ∧ m.cheapestPath source target = .empty ∨
        (n.cheapestPath source target ≠ .empty ∧ m.cheapestPath source target ≠ .empty) ∧
          n.pathCost (n.cheapestPath source target) ≤ m.pathCost (m.cheapestPath source target) ∧
          m.pathCost (m.cheapestPath source target) ≤ n.pathCost (n.cheapestPath source target) := by
  have formed := built.wellFormed
  have formed' := built'.wellFormed
  refine ⟨agrees.distances formed formed', fun seeds => ?_, fun source target => ?_⟩
  · exact IdSet.ext_mem fun _ => ⟨agrees.mem_reach formed formed', agrees.symm.mem_reach formed' formed⟩
  · rcases agrees.cheapestPath_le formed formed' source target with none | ⟨some, some', le⟩
    · exact .inl none
    · rcases agrees.symm.cheapestPath_le formed' formed source target with none' | ⟨_, _, le'⟩
      · exact .inl none'.symm
      · exact .inr ⟨⟨some, some'⟩, le, le'⟩

/-- Two free ways round to the fourth vertex, and one more past a vertex that is blocked. -/
def crossroads : Network :=
  (ofConnections [.directed 1 2 12 negativeZero, .bidirectional 2 4 24 (.ofInt 3), .directed 1 3 13 .zero,
    .directed 3 4 34 (.ofInt 3), .bidirectional 1 5 15 .zero, .directed 5 4 54 .zero]).1.blockEach [5]

/-- The same built from the other end, with the signs of the zeros turned round. -/
def turnedCrossroads : Network :=
  (ofConnections [.directed 5 4 54 negativeZero, .bidirectional 1 5 15 .zero, .directed 3 4 34 (.ofInt 3),
    .directed 1 3 13 negativeZero, .bidirectional 2 4 24 (.ofInt 3), .directed 1 2 12 .zero]).1.blockEach [5]

/-- The ways taken to the fourth vertex differ, their cost and what is reached do not. -/
theorem agreeing_answers_crossroads :
    crossroads.Built ∧ turnedCrossroads.Built ∧ crossroads.Agrees turnedCrossroads ∧
      (crossroads.cheapestPath 1 4).edges = [12, 24] ∧ (turnedCrossroads.cheapestPath 1 4).edges = [13, 34] ∧
      (crossroads.cheapestTree 1).distances = (turnedCrossroads.cheapestTree 1).distances ∧
      crossroads.reach (.ofList [3, 9]) = turnedCrossroads.reach (.ofList [3, 9]) := by
  have here : crossroads.Built := (built_ofConnections _).blockEach [5]
  have there : turnedCrossroads.Built := (built_ofConnections _).blockEach [5]
  have agrees : crossroads.Agrees turnedCrossroads := by decide +kernel
  obtain ⟨trees, reached, _⟩ := agreeing_answers here there agrees
  exact ⟨here, there, agrees, by decide +kernel, by decide +kernel, (trees 1).1, reached _⟩

end Network

end FeatureNet
