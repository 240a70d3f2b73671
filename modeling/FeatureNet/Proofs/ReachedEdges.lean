import FeatureNet.Proofs.BlockedVertices
import FeatureNet.Proofs.ExhaustedPaths
import FeatureNet.Proofs.ServedVertices
import FeatureNet.Proofs.UsableEdges
import FeatureNet.Session.Result

namespace FeatureNet

open Binary64 Network

/-- Each end of an edge is the end that it leaves from or the one across. -/
theorem Edge.Leaves.eq_or_opposite {e : Edge} {u v : FeatureId} (leaves : e.Leaves u)
    (atEnd : v = e.source ∨ v = e.target) : v = u ∨ v = e.opposite u := by
  rcases leaves.ends with ⟨source, target⟩ | ⟨source, target⟩
  · exact atEnd.imp (·.trans source) (·.trans target)
  · exact atEnd.symm.imp (·.trans target) (·.trans source)

namespace Network

variable {n : Network} {seeds : IdSet} {root v : FeatureId} {steps : List Step} {total : Binary64}
  {t : PathTree} {order : List FeatureId}

theorem mem_endpoints {edges : IdSet} :
    v ∈ n.endpoints edges ↔ ∃ edge ∈ edges, ∃ e, n.edge? edge = some e ∧ (v = e.source ∨ v = e.target) := by
  simp only [endpoints, IdSet.mem_ofList, List.mem_flatMap, List.mem_filterMap, IdSet.mem_toList,
    List.mem_cons, List.not_mem_nil, or_false]
  constructor
  · rintro ⟨e, ⟨edge, reached, found⟩, atEnd⟩
    exact ⟨edge, reached, e, found, atEnd⟩
  · rintro ⟨edge, reached, e, found, atEnd⟩
    exact ⟨e, ⟨edge, reached, found⟩, atEnd⟩

/-- In a well-formed network what a vertex lists is there, so a served vertex has all its edges reached. -/
theorem WellFormed.mem_reach_iff (formed : n.WellFormed) {edge : FeatureId} :
    edge ∈ n.reach seeds ↔ ∃ u, n.Served seeds u ∧ edge ∈ n.outgoing u := by
  rw [Network.mem_reach_iff]
  refine exists_congr fun u => and_congr_right fun _ => and_iff_left_of_imp fun listed => ?_
  obtain ⟨e, found, _⟩ := formed.listed.mp listed
  exact Option.isSome_iff_exists.mpr ⟨e, found⟩

/-- An end of an edge reached is served, unless it is the blocked one across. -/
theorem WellFormed.served_of_end (formed : n.WellFormed) {edge : FeatureId} {e : Edge}
    (reached : edge ∈ n.reach seeds) (found : n.edge? edge = some e) (atEnd : v = e.source ∨ v = e.target)
    (free : n.isBlocked v = false) : n.Served seeds v := by
  obtain ⟨u, served, listed⟩ := formed.mem_reach_iff.mp reached
  obtain ⟨e', found', leaves⟩ := formed.listed.mp listed
  rw [found] at found'
  cases found'
  rcases leaves.eq_or_opposite atEnd with rfl | rfl
  · exact served
  · exact served.on listed found free

/-- The edges reached from seeds are exactly those that leave a served vertex. A session that holds the network
answers with these edges and with exactly their ends, and each of the ends that is not blocked has all the edges
that leave it in the answer. -/
theorem distribution_exact (built : n.Built) (seeds : IdSet) :
    (∀ edge, edge ∈ n.reach seeds ↔ ∃ u, n.Served seeds u ∧ edge ∈ n.outgoing u) ∧
      ∀ s : Session, s.network = some n → ∃ d, s.distribution seeds = .ok d ∧ d.edges = n.reach seeds ∧
        (∀ v, v ∈ d.vertices ↔
          ∃ edge ∈ d.edges, ∃ e, n.edge? edge = some e ∧ (v = e.source ∨ v = e.target)) ∧
        ∀ v ∈ d.vertices, n.isBlocked v = false → ∀ edge ∈ n.outgoing v, edge ∈ d.edges := by
  have formed := built.wellFormed
  refine ⟨fun edge => formed.mem_reach_iff, fun s prepared => ⟨n.distribution seeds, ?_, rfl, fun v => mem_endpoints,
    fun v member free edge listed => ?_⟩⟩
  · rw [Session.distribution, Session.prepared, prepared]
    rfl
  · obtain ⟨reaching, reached, e, found, atEnd⟩ := mem_endpoints.mp member
    exact formed.mem_reach_iff.mpr ⟨v, formed.served_of_end reached found atEnd free, listed⟩

/-- Two seeds, one of them blocked and the other unknown; behind the second vertex the way is barred at the
third, which has an edge of its own and a loop beyond the barrier. -/
def barred : Network :=
  (ofConnections [.bidirectional 1 2 12 (.ofInt 1), .bidirectional 2 2 22 .zero, .directed 2 3 23 .infinity,
    .directed 3 4 34 .zero, .bidirectional 3 3 33 .zero, .directed 5 1 51 (.ofInt 1)]).1.blockEach [1, 3]

/-- What leaves the blocked seed is reached, what leads to it or leaves the barrier is not. -/
theorem distribution_exact_barred :
    barred.Built ∧ (barred.reach (.ofList [1, 9])).toList = [12, 22, 23] ∧
      ∃ d, Session.distribution (.ofList [1, 9]) ⟨.memory (.ofList []), .standard, some barred⟩ = .ok d ∧
        (∀ v ∈ d.vertices, barred.isBlocked v = false → ∀ edge ∈ barred.outgoing v, edge ∈ d.edges) ∧
        ∃ u, barred.Served (.ofList [1, 9]) u ∧ 23 ∈ barred.outgoing u := by
  have built : barred.Built := (built_ofConnections _).blockEach [1, 3]
  have listed : (barred.reach (.ofList [1, 9])).toList = [12, 22, 23] := by decide +kernel
  obtain ⟨edges, answers⟩ := distribution_exact built (.ofList [1, 9])
  obtain ⟨d, answered, _, _, closed⟩ := answers ⟨.memory (.ofList []), .standard, some barred⟩ rfl
  refine ⟨built, listed, d, answered, closed, (edges 23).mp (IdSet.mem_toList.mp ?_)⟩
  rw [listed]
  decide

/-- A walk leads from a seed to served vertices only. -/
theorem Walk.served (walk : n.Walk root steps v total) (seed : root ∈ seeds) : n.Served seeds v := by
  induction walk with
  | here => exact .seed seed
  | on _ listed found free ih => exact ih.on listed found free

theorem passable_of_finite (each : ∀ id e, n.edge? id = some e → e.cost.isFinite = true) (steps : List Step) :
    n.Passable steps := by
  intro cost member
  obtain ⟨id, _, known⟩ := List.mem_filterMap.mp member
  obtain ⟨e, found, rfl⟩ := Option.map_eq_some_iff.mp known
  exact each id e found

theorem outgoing_unknown (unknown : n.containsVertex v = false) : n.outgoing v = [] := by
  have absent : n.vertex? v = none := by simpa [containsVertex_eq] using unknown
  rw [outgoing, absent]
  rfl

/-- Nothing is reached from a vertex that is not there. -/
theorem reach_unknown (unknown : n.containsVertex root = false) (edge : FeatureId) :
    edge ∉ n.reach (.ofList [root]) := by
  have only {v : FeatureId} (served : n.Served (.ofList [root]) v) : v = root := by
    induction served with
    | seed member => exact List.mem_singleton.mp (IdSet.mem_ofList.mp member)
    | on _ listed _ _ ih =>
      rw [ih, outgoing_unknown unknown] at listed
      exact absurd listed List.not_mem_nil
  intro reached
  obtain ⟨u, served, listed, _⟩ := Network.mem_reach_iff.mp reached
  rw [only served, outgoing_unknown unknown] at listed
  exact absurd listed List.not_mem_nil

/-- Where every cost is finite and no sum overflows, the tree of a vertex spans all that is served from it: the
tree's way to a served vertex goes on to the next one, or has passed that already. -/
theorem SumsFinite.spanned (formed : n.WellFormed) (finite : n.SumsFinite)
    (each : ∀ id e, n.edge? id = some e → e.cost.isFinite = true) (spans : t.Spans n root order)
    (served : n.Served (.ofList [root]) v) : v ∈ order := by
  induction served with
  | seed member =>
    rw [IdSet.mem_ofList, List.mem_singleton] at member
    exact member ▸ spans.rooted
  | @on u edge e _ listed found free visited =>
    obtain ⟨d, atU⟩ := spans.reached.mp visited
    obtain ⟨steps, way, walk, visits⟩ := spans.exists_wayBack formed atU
    by_cases passed : e.opposite u ∈ root :: steps.map (·.vertex)
    · rcases List.mem_cons.mp passed with atRoot | inside
      · exact atRoot ▸ spans.rooted
      · obtain ⟨s, isStep, same⟩ := List.mem_map.mp inside
        exact same ▸ (visits s isStep).1
    · have onward := walk.on listed found free
      have passable := passable_of_finite each (steps ++ [⟨e.opposite u, some edge⟩])
      have nodup := way.nodup_vertices
      rw [List.reverse_reverse] at nodup
      have below := isFinite_iff.mp (finite _ _ _ _ onward (loopless_concat nodup passed) passable)
      exact (spans.least formed onward below).1

/-- From one vertex every edge is reached that leaves a vertex of its tree of cheapest paths; and no other, if
every cost is finite and no sum of costs along a walk without repeats overflows. -/
theorem reach_eq_tree (built : n.Built) (start : FeatureId) :
    (∀ v, (n.cheapestTree start).contains v = true →
      ∀ edge ∈ n.outgoing v, edge ∈ n.reach (.ofList [start])) ∧
    ((∀ id e, n.edge? id = some e → e.cost.isFinite = true) → n.SumsFinite → ∀ edge,
      edge ∈ n.reach (.ofList [start]) ↔
        ∃ v, (n.cheapestTree start).contains v = true ∧ edge ∈ n.outgoing v) := by
  have formed := built.wellFormed
  have seed : start ∈ IdSet.ofList [start] := IdSet.mem_ofList.mpr (List.mem_singleton_self start)
  cases known : n.containsVertex start with
  | false =>
    have empty (v : FeatureId) : (n.cheapestTree start).contains v ≠ true := by
      rw [cheapestTree, known]
      exact Bool.false_ne_true
    refine ⟨fun v contained => absurd contained (empty v), fun _ _ edge => ?_⟩
    refine iff_of_false (reach_unknown known edge) ?_
    rintro ⟨v, contained, _⟩
    exact empty v contained
  | true =>
    obtain ⟨order, spans⟩ := exists_spans formed known
    have served {v : FeatureId} (contained : (n.cheapestTree start).contains v = true) :
        n.Served (.ofList [start]) v := by
      obtain ⟨d, atV⟩ := spans.reached.mp (spans.contains.mp contained)
      obtain ⟨_, _, steps, walk⟩ := spans.walked atV
      exact walk.served seed
    refine ⟨fun v contained edge listed => formed.mem_reach_iff.mpr ⟨v, served contained, listed⟩,
      fun each finite edge => ?_⟩
    rw [formed.mem_reach_iff]
    refine exists_congr fun v => and_congr_left fun _ => ⟨fun isServed => ?_, served⟩
    exact spans.contains.mpr (finite.spanned formed each spans isServed)

/-- From a blocked vertex, over a cost behind which the next is lost in rounding, to a vertex that is blocked too;
the edge of no cost leads back. -/
def lagoon : Network :=
  (ofConnections [.bidirectional 1 2 12 ⟨0x4340000000000000⟩, .directed 2 3 23 (.ofInt 1),
    .directed 3 1 31 .zero, .bidirectional 3 4 34 (.ofInt 2), .directed 4 5 45 .zero]).1.blockEach [1, 4]

/-- The tree of the first vertex has three vertices, and the edges that leave them are what is reached. -/
theorem reach_eq_tree_lagoon :
    lagoon.Built ∧ (∀ id e, lagoon.edge? id = some e → e.cost.isFinite = true) ∧ lagoon.SumsFinite ∧
      (lagoon.cheapestTree 1).predecessors.keys = [1, 2, 3] ∧
      (lagoon.reach (.ofList [1])).toList = [12, 23, 31, 34] ∧
      (∀ edge ∈ lagoon.outgoing 3, edge ∈ lagoon.reach (.ofList [1])) ∧
      ∀ edge, edge ∈ lagoon.reach (.ofList [1]) ↔
        ∃ v, (lagoon.cheapestTree 1).contains v = true ∧ edge ∈ lagoon.outgoing v := by
  have built : lagoon.Built := (built_ofConnections _).blockEach [1, 4]
  have finite : lagoon.SumsFinite := sumsFinite_of_modest built.wellFormed (by decide +kernel)
  have each : ∀ id e, lagoon.edge? id = some e → e.cost.isFinite = true := by
    intro id e found
    have entries : ∀ entry ∈ lagoon.edges.entries, entry.2.cost.isFinite = true := by decide +kernel
    exact entries _ (IdMap.mem_entries_iff.mpr found)
  obtain ⟨inside, same⟩ := reach_eq_tree built 1
  exact ⟨built, each, finite, by decide +kernel, by decide +kernel, inside 3 (by decide +kernel),
    same each finite⟩

end Network

end FeatureNet
