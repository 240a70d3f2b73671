import FeatureNet.Proofs.WaitingDetours

namespace FeatureNet

open Network

namespace Row

/-- The steps behind the first one that rows stand for: each has the row of its edge, then that of its vertex. -/
def stepsOnward : List Row → List Step
  | edge :: vertex :: rest => ⟨vertex.feature, some edge.feature⟩ :: stepsOnward rest
  | [_] | [] => []

/-- The steps that the rows of a route stand for. -/
def steps : List Row → List Step
  | [] => []
  | first :: rest => ⟨first.feature, none⟩ :: stepsOnward rest

end Row

variable {n : Network} {source target : FeatureId} {s : Session}

namespace Network

/-- Steps such as a path has behind its first: each has an edge, and none leads to a blocked vertex. -/
def Onward (n : Network) (steps : List Step) : Prop :=
  ∀ s ∈ steps, (∃ edge, s.edge = some edge) ∧ n.isBlocked s.vertex = false

theorem onward_of_crossing {first : Step} {steps : List Step}
    (crossing : (first :: steps).IsChain fun a b => n.Crosses a.vertex b)
    (free : ∀ s ∈ steps, n.isBlocked s.vertex = false) : n.Onward steps := by
  induction steps generalizing first with
  | nil => exact fun s member => absurd member List.not_mem_nil
  | cons next steps ih =>
    obtain ⟨⟨edge, _, atEdge, _⟩, rest⟩ := List.isChain_cons_cons.mp crossing
    have later := ih rest fun s member => free s (List.mem_cons_of_mem _ member)
    intro s member
    rcases List.mem_cons.mp member with rfl | behind
    · exact ⟨⟨edge, atEdge⟩, free s member⟩
    · exact later s behind

/-- Every row names its route and its place. -/
theorem stepRows_place (n : Network) (route ordinal : Nat) (steps : List Step) {j : Nat} {row : Row}
    (found : (n.stepRows route ordinal steps)[j]? = some row) : row.route = route ∧ row.ordinal = ordinal + j := by
  fun_induction stepRows n route ordinal steps generalizing j with
  | case1 => simp at found
  | case2 ordinal vertex rest ih =>
    cases j with
    | zero =>
      cases found
      exact ⟨rfl, rfl⟩
    | succ j =>
      obtain ⟨own, place⟩ := ih found
      exact ⟨own, by omega⟩
  | case3 ordinal vertex edge rest ih =>
    match j with
    | 0 =>
      cases found
      exact ⟨rfl, rfl⟩
    | 1 =>
      cases found
      exact ⟨rfl, rfl⟩
    | j + 2 =>
      obtain ⟨own, place⟩ := ih found
      exact ⟨own, by omega⟩

/-- Each step behind the first has two rows, its edge's and its vertex's, and is read off them again. -/
theorem stepRows_onward {steps : List Step} (onward : n.Onward steps) (route ordinal : Nat) :
    (n.stepRows route ordinal steps).length = 2 * steps.length ∧
      Row.stepsOnward (n.stepRows route ordinal steps) = steps ∧
        ∀ (j : Nat) (row : Row), (n.stepRows route ordinal steps)[j]? = some row →
          row.kind = (if j % 2 = 0 then .edge else .vertex) ∧ row.blocked = false := by
  fun_induction stepRows n route ordinal steps with
  | case1 => exact ⟨rfl, rfl, by simp⟩
  | case2 ordinal vertex rest ih =>
    obtain ⟨edge, none⟩ := (onward _ (List.mem_cons_self ..)).1
    cases none
  | case3 ordinal vertex edge rest ih =>
    obtain ⟨length, steps, rows⟩ := ih fun s member => onward s (List.mem_cons_of_mem _ member)
    have free := (onward _ (List.mem_cons_self ..)).2
    refine ⟨?_, ?_, fun j row found => ?_⟩
    · simp only [List.length_cons, length]
      omega
    · rw [Row.stepsOnward, steps]
    · match j with
      | 0 =>
        cases found
        exact ⟨rfl, rfl⟩
      | 1 =>
        cases found
        exact ⟨rfl, free⟩
      | j + 2 =>
        rw [Nat.add_mod_right]
        exact rows j row found

/-- What the rows of a route tell: the route and the place of each, a vertex and an edge in turn with which the
steps are read again, and that the start is blocked if it is. -/
structure RouteTold (n : Network) (source : FeatureId) (rank : Nat) (r : Route) : Prop where
  number : r.number = rank
  cost : r.cost = n.pathCost r.path
  length : r.rows.length + 1 = 2 * r.path.length
  steps : Row.steps r.rows = r.path.steps
  row {j : Nat} {row : Row} : r.rows[j]? = some row → row.route = rank ∧ row.ordinal = j ∧
    row.kind = (if j % 2 = 0 then .vertex else .edge) ∧
      (row.blocked = true ↔ j = 0 ∧ n.isBlocked source = true)

theorem Admissible.routeTold {p : Path} (admissible : n.Admissible source target p) (number : Nat) :
    n.RouteTold source number (n.route number p) := by
  obtain ⟨steps, rfl⟩ := admissible.exists_steps
  have onward := onward_of_crossing admissible.crossing admissible.free
  obtain ⟨length, again, rows⟩ := stepRows_onward onward number 1
  refine ⟨rfl, rfl, ?_, ?_, fun {j row} found => ?_⟩
  · simp only [route, stepRows, Path.length, List.length_cons, Nat.zero_add, length]
    omega
  · simp only [route, stepRows, Nat.zero_add, Row.steps, again]
  · obtain ⟨own, place⟩ := n.stepRows_place number 0 _ found
    refine ⟨own, by omega, ?_⟩
    cases j with
    | zero =>
      cases found
      exact ⟨rfl, (and_iff_right rfl).symm⟩
    | succ j =>
      obtain ⟨kind, free⟩ := rows j row found
      refine ⟨?_, iff_of_false ?_ ?_⟩
      · rw [kind]
        rcases Nat.mod_two_eq_zero_or_one j with even | odd
        · rw [if_pos even, if_neg (by omega)]
        · rw [if_neg (by omega), if_pos (by omega)]
      · rw [free]
        exact Bool.false_ne_true
      · exact fun both => absurd both.1 (Nat.succ_ne_zero j)

theorem alternatives_admissible (formed : n.WellFormed) {count : Nat} {p : Path}
    (member : p ∈ (n.alternatives source target count).1) : n.Admissible source target p := by
  cases known : n.containsVertex source with
  | false =>
    rw [alternatives_unknown known] at member
    exact absurd member List.not_mem_nil
  | true => exact (alternatives_sound formed known target count).1 p member

theorem routes_told (formed : n.WellFormed) {count i : Nat} {r : Route}
    (found : (n.routes (n.alternatives source target count).1)[i]? = some r) : n.RouteTold source (i + 1) r := by
  rw [routes, List.getElem?_mapIdx] at found
  obtain ⟨p, isPath, rfl⟩ := Option.map_eq_some_iff.mp found
  exact (alternatives_admissible formed (List.mem_of_getElem? isPath)).routeTold (i + 1)

/-- What the rows of a distribution tell: its vertices and then its edges in ascending order, the place of each
row, and which of the vertices are blocked. -/
structure DistributionTold (n : Network) (d : Distribution) : Prop where
  features : d.rows.map (fun row => (row.kind, row.feature)) =
    d.vertices.toList.map (FeatureKind.vertex, ·) ++ d.edges.toList.map (FeatureKind.edge, ·)
  vertices : d.vertices.toList.Pairwise (· < ·)
  edges : d.edges.toList.Pairwise (· < ·)
  row {j : Nat} {row : Row} : d.rows[j]? = some row → row.route = 1 ∧ row.ordinal = j ∧
    (row.blocked = true ↔ row.kind = .vertex ∧ n.isBlocked row.feature = true)

theorem distribution_told (n : Network) (emitters : IdSet) : n.DistributionTold (n.distribution emitters) where
  features := by
    have plain {row : Nat → FeatureId × FeatureKind × Bool → Row}
        (features : List (FeatureId × FeatureKind × Bool))
        (kept : ∀ i entry, ((row i entry).kind, (row i entry).feature) = (entry.2.1, entry.1)) :
        (features.mapIdx row).map (fun row => (row.kind, row.feature)) =
          features.map fun entry => (entry.2.1, entry.1) := by
      refine List.ext_getElem? fun i => ?_
      rw [List.getElem?_map, List.getElem?_mapIdx, List.getElem?_map, Option.map_map]
      exact congrArg (Option.map · features[i]?) (funext (kept i))
    rw [distribution, plain _ fun _ _ => rfl, List.map_append, List.map_map, List.map_map]
    rfl
  vertices := IdSet.toList_ascending _
  edges := IdSet.toList_ascending _
  row {j row} found := by
    rw [distribution, List.getElem?_mapIdx] at found
    obtain ⟨⟨feature, kind, blocked⟩, isFeature, rfl⟩ := Option.map_eq_some_iff.mp found
    refine ⟨rfl, rfl, ?_⟩
    rcases List.mem_append.mp (List.mem_of_getElem? isFeature) with isVertex | isEdge
    · obtain ⟨v, _, same⟩ := List.mem_map.mp isVertex
      cases same
      exact (and_iff_right rfl).symm
    · obtain ⟨e, _, same⟩ := List.mem_map.mp isEdge
      cases same
      simp

end Network

namespace Session

variable {store : Store} {config : Config}

/-- A session answers if it is asked for a single route, or for no more than its settings allow. -/
theorem routing_ok_iff (prepared : s.network = some n) (source target : FeatureId) (count : Nat) :
    (∃ found, (s.routing source target count).1 = .ok found) ↔
      count = 1 ∨ 0 < count ∧ count ≤ s.config.maxCount := by
  obtain ⟨store, config, network⟩ := s
  cases prepared
  unfold routing alternatives
  by_cases single : count = 1
  · subst single
    exact iff_of_true ⟨_, rfl⟩ (.inl rfl)
  · rw [or_iff_right single]
    by_cases allowed : 0 < count ∧ count ≤ config.maxCount
    · have inside : ¬(count = 0 ∨ config.maxCount < count) := by omega
      simp only [if_neg single, if_neg inside]
      exact iff_of_true ⟨_, rfl⟩ allowed
    · have outside : count = 0 ∨ config.maxCount < count := by omega
      simp only [if_neg single, if_pos outside]
      refine iff_of_false ?_ allowed
      rintro ⟨found, answered⟩
      cases answered

/-- Whatever has happened to a session before, its rows lose nothing. It answers if it is asked for one route or
for no more than allowed, the routes are the alternatives in their order, and the rows of each tell its number,
their places, the features in turn, the steps, and whether the start is blocked; a distribution is answered
always, and its rows tell the vertices and then the edges in ascending order, and which vertices are blocked. -/
theorem rows_faithful (reached : Reached store config s) (prepared : s.network = some n) :
    (∀ source target count,
      ((∃ found, (s.routing source target count).1 = .ok found) ↔
        count = 1 ∨ 0 < count ∧ count ≤ config.maxCount) ∧
      ∀ found, (s.routing source target count).1 = .ok found →
        found.routes.map (·.path) = (n.alternatives source target count).1 ∧
        ∀ (i : Nat) (r : Route), found.routes[i]? = some r → n.RouteTold source (i + 1) r) ∧
      ∀ emitters, ∃ d, s.distribution emitters = .ok d ∧ d.edges = n.reach emitters ∧ n.DistributionTold d := by
  have formed := (reached.built prepared).wellFormed
  refine ⟨fun source target count => ⟨?_, fun found answered => ?_⟩, fun emitters => ?_⟩
  · rw [routing_ok_iff prepared, reached.mirrored.settings]
  · rw [routes_routing prepared answered]
    refine ⟨List.ext_getElem? fun i => ?_, fun i r => routes_told formed⟩
    rw [List.getElem?_map, routes, List.getElem?_mapIdx, Option.map_map]
    exact Option.map_id'
  · refine ⟨n.distribution emitters, ?_, rfl, n.distribution_told emitters⟩
    rw [distribution, Session.prepared, prepared]
    rfl

/-- Two edges beside each other, an edge back to the first vertex, and one more beyond; the first vertex and the
last are stored as blocked. -/
def besieged : Session :=
  (start (.memory (.ofList [1, 4])) .standard).after (.prepare
    [.bidirectional 1 2 12 (.ofInt 1), .bidirectional 1 2 120 (.ofInt 3), .directed 2 3 23 .zero,
      .bidirectional 3 4 34 .zero])

/-- The second route leaves the blocked start by the dearer edge, and its rows are five; the blocked vertex that
is reached behind the third has its row in the distribution. -/
theorem rows_faithful_besieged :
    Reached (.memory (.ofList [1, 4])) .standard besieged ∧
      ∃ n, besieged.network = some n ∧ ∃ found, (besieged.routing 1 3 2).1 = .ok found ∧
        ∃ r, found.routes[1]? = some r ∧ n.RouteTold 1 2 r ∧
          r.rows = [⟨2, 0, 1, .vertex, true⟩, ⟨2, 1, 120, .edge, false⟩, ⟨2, 2, 2, .vertex, false⟩,
            ⟨2, 3, 23, .edge, false⟩, ⟨2, 4, 3, .vertex, false⟩] ∧
          ∃ d, besieged.distribution (.ofList [1]) = .ok d ∧ n.DistributionTold d ∧
            d.rows.map (fun row => (row.ordinal, row.feature, row.blocked)) =
              [(0, 1, true), (1, 2, false), (2, 3, false), (3, 4, true), (4, 12, false), (5, 23, false),
                (6, 34, false), (7, 120, false)] := by
  have reached : Reached (.memory (.ofList [1, 4])) .standard besieged := Reached.start.call (.prepare _)
  obtain ⟨n, prepared⟩ : ∃ n, besieged.network = some n := Option.isSome_iff_exists.mp (by decide +kernel)
  obtain ⟨routes, distributions⟩ := rows_faithful reached prepared
  obtain ⟨answers, told⟩ := routes 1 3 2
  obtain ⟨found, answered⟩ := answers.mpr (.inr (by decide))
  have second : (besieged.routing 1 3 2).1.map (fun found => found.routes[1]?.map (·.rows)) =
      .ok (some [⟨2, 0, 1, .vertex, true⟩, ⟨2, 1, 120, .edge, false⟩, ⟨2, 2, 2, .vertex, false⟩,
        ⟨2, 3, 23, .edge, false⟩, ⟨2, 4, 3, .vertex, false⟩]) := by decide +kernel
  rw [answered] at second
  obtain ⟨r, isSecond, rows⟩ := Option.map_eq_some_iff.mp (Except.ok.inj second)
  obtain ⟨d, spread, _, spreadTold⟩ := distributions (.ofList [1])
  have listed : (besieged.distribution (.ofList [1])).map
      (fun d => d.rows.map fun row => (row.ordinal, row.feature, row.blocked)) =
        .ok [(0, 1, true), (1, 2, false), (2, 3, false), (3, 4, true), (4, 12, false), (5, 23, false),
          (6, 34, false), (7, 120, false)] := by decide +kernel
  rw [spread] at listed
  exact ⟨reached, n, prepared, found, answered, r, isSecond, (told found answered).2 1 r isSecond, rows, d, spread,
    spreadTold, Except.ok.inj listed⟩

end Session

end FeatureNet
