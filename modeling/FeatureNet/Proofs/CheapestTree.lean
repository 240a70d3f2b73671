import FeatureNet.Proofs.CheapestSearch

namespace FeatureNet

open Binary64 Network

/-- A finished tree over the vertices of `order`, listed as they were visited: each hangs on one before it,
and no edge from any of them leads anywhere at less cost. -/
structure PathTree.Spans (t : PathTree) (n : Network) (root : FeatureId) (order : List FeatureId) :
    Prop where
  root_eq : t.root = some root
  nodup : order.Nodup
  rooted : root ∈ order
  start : t.distance? root = some .zero
  contains {v} : t.contains v = true ↔ v ∈ order
  reached {v} : v ∈ order ↔ ∃ d, t.distance? v = some d
  walked {v d} : t.distance? v = some d →
    d.magnitude < infiniteMagnitude ∧ d.negative = false ∧ ∃ steps, n.Walk root steps v d
  parent {v d} : t.distance? v = some d → v ≠ root → ∃ u edge e du, t.Parent n order v d u edge e du
  settled {u} : u ∈ order → Search.Settled n t u (n.outgoing u)

variable {n : Network} {root : FeatureId} {order : List FeatureId} {t : PathTree}

theorem Search.Sound.spans {s : Search} (sound : s.Sound n root order)
    (settled : ∀ u ∈ order, Search.Settled n s.tree u (n.outgoing u)) (empty : s.frontier.entries = []) :
    s.tree.Spans n root order := by
  have reached {v : FeatureId} : v ∈ order ↔ ∃ d, s.tree.distance? v = some d := by
    refine ⟨sound.reached, fun ⟨d, atV⟩ => ?_⟩
    apply Decidable.of_not_not
    intro unvisited
    obtain ⟨number, entry⟩ := sound.pending atV unvisited
    rw [empty] at entry
    exact List.not_mem_nil entry
  refine ⟨sound.root_eq, sound.nodup, sound.rooted, sound.start, ?_, reached, sound.walked, sound.parent,
    settled _⟩
  intro v
  rw [sound.contains, Option.isSome_iff_exists, reached]

/-- Visiting a vertex of the frontier leaves the search sound and every visited vertex settled. -/
theorem Search.Sound.visit (formed : n.WellFormed) {s : Search} (sound : s.Sound n root order)
    (settled : ∀ u ∈ order, Search.Settled n s.tree u (n.outgoing u)) {distance : Binary64} {u : FeatureId}
    {frontier : Frontier FeatureId} (taken : s.frontier.popMin? = some ((distance, u), frontier))
    (fresh : u ∉ order) :
    (Search.visit n { s with frontier } u distance).Sound n root (order ++ [u]) ∧
      ∀ w ∈ order ++ [u],
        Search.Settled n (Search.visit n { s with frontier } u distance).tree w (n.outgoing w) := by
  obtain ⟨sound', known, latest⟩ := sound.take taken fresh
  have now : u ∈ order ++ [u] := List.mem_append_right _ (List.mem_singleton_self u)
  obtain ⟨sound'', narrows, settledU⟩ := sound'.foldl_relax formed now known latest fun _ => id
  refine ⟨sound'', fun w member => ?_⟩
  rcases List.mem_append.mp member with before | last
  · have old : Search.Settled n { s with frontier, visited := s.visited.insert u }.tree w (n.outgoing w) :=
      settled w before
    exact old.mono member narrows
  · rw [List.mem_singleton.mp last]
    exact settledU

theorem Search.Sound.run (formed : n.WellFormed) {s : Search} (sound : s.Sound n root order)
    (settled : ∀ u ∈ order, Search.Settled n s.tree u (n.outgoing u)) :
    ∃ order', (Search.run n s).Spans n root order' := by
  fun_induction Search.run n s generalizing order with
  | case1 s empty => exact ⟨order, sound.spans settled (Frontier.popMin?_eq_none_iff.mp empty)⟩
  | case2 s distance u frontier taken stale ih =>
    exact ih (sound.drop taken (sound.visited.mp stale)) settled
  | case3 s distance u frontier taken fresh ih =>
    obtain ⟨sound', settled'⟩ := sound.visit formed settled taken fun old => fresh (sound.visited.mpr old)
    exact ih sound' settled'

/-- The search when the entry of the root, the only one, has been taken. -/
def Search.first (root : FeatureId) : Search :=
  { Search.start root with frontier := ⟨[], 1⟩, visited := IdSet.empty.insert root }

theorem Search.distance?_first {v : FeatureId} {d : Binary64}
    (atV : (Search.first root).tree.distance? v = some d) : v = root ∧ d = .zero := by
  have distance : (Search.first root).tree.distance? v = if v = root then some .zero else none :=
    IdMap.get?_insert ..
  rw [distance] at atV
  split at atV
  · next same => exact ⟨same, (Option.some.inj atV).symm⟩
  · cases atV

theorem Search.sound_first (n : Network) (root : FeatureId) : (Search.first root).Sound n root [root] := by
  have distance (w : FeatureId) :
      (Search.first root).tree.distance? w = if w = root then some .zero else none := IdMap.get?_insert ..
  refine ⟨rfl, List.pairwise_singleton _ root, by simp [first], List.mem_singleton_self root,
    by rw [distance, if_pos rfl], ?_, ?_, ?_, ?_, ?_, fun entry => absurd entry List.not_mem_nil,
    fun _ _ entry isEntry => absurd isEntry List.not_mem_nil, ⟨.nil, by simp [first]⟩⟩
  · intro v
    rw [distance]
    change ((IdMap.empty.insert root none).get? v).isSome = _
    rw [IdMap.get?_insert]
    split <;> rfl
  · intro v member
    exact ⟨_, by rw [distance, if_pos (List.mem_singleton.mp member)]⟩
  · intro v d atV
    obtain ⟨rfl, rfl⟩ := distance?_first atV
    exact ⟨by decide, by decide, [], .here⟩
  · intro v d atV notRoot
    exact absurd (distance?_first atV).1 notRoot
  · intro v d atV unvisited
    exact absurd (List.mem_singleton.mpr (distance?_first atV).1) unvisited

theorem Search.run_start (n : Network) (root : FeatureId) :
    Search.run n (.start root) =
      Search.run n ((n.outgoing root).foldl (Search.relax n root .zero) (.first root)) := by
  have first : (Search.start root).frontier.popMin? = some ((.zero, root), ⟨[], 1⟩) := rfl
  rw [Search.run]
  split
  · next none => cases first.symm.trans none
  · next d u frontier taken =>
    cases first.symm.trans taken
    exact dif_neg (IdSet.not_mem_empty root)

theorem Search.latest_first (root : FeatureId) : ∀ w ∈ [root], ∀ d,
    (Search.first root).tree.distance? w = some d → d.magnitude ≤ Binary64.zero.magnitude := by
  intro w _ d atW
  rw [(distance?_first atW).2]

/-- The first visit is to the root, whose entry is the only one. -/
theorem Search.sound_start (formed : n.WellFormed) (root : FeatureId) :
    ∃ s : Search, Search.run n (.start root) = Search.run n s ∧ s.Sound n root [root] ∧
      Search.Settled n s.tree root (n.outgoing root) := by
  have sound := sound_first n root
  obtain ⟨sound', _, settled⟩ := sound.foldl_relax formed (List.mem_singleton_self root) sound.start
    (latest_first root) fun _ => id
  exact ⟨_, run_start n root, sound', settled⟩

/-- The tree of a known vertex spans what the search has visited. -/
theorem Network.exists_spans (formed : n.WellFormed) (known : n.containsVertex root = true) :
    ∃ order, (n.cheapestTree root).Spans n root order := by
  obtain ⟨s, same, sound, settled⟩ := Search.sound_start formed root
  rw [cheapestTree, if_pos known, same]
  exact sound.run formed fun u member => List.mem_singleton.mp member ▸ settled

theorem PathTree.Spans.isCost_distance (spans : t.Spans n root order) {v : FeatureId} {d : Binary64}
    (atV : t.distance? v = some d) : isCost d := by
  obtain ⟨finite, positive, _⟩ := spans.walked atV
  exact isCost_iff.mpr ⟨Nat.le_of_lt finite, by simp [positive]⟩

/-- No walk of finite cost leads outside a finished tree, or to one of its vertices at less cost. -/
theorem PathTree.Spans.least (formed : n.WellFormed) (spans : t.Spans n root order) {steps : List Step}
    {v : FeatureId} {total : Binary64} (walk : n.Walk root steps v total)
    (finite : total.magnitude < infiniteMagnitude) :
    v ∈ order ∧ ∃ d, t.distance? v = some d ∧ d.magnitude ≤ total.magnitude := by
  induction walk with
  | here => exact ⟨spans.rooted, _, spans.start, Nat.le_refl _⟩
  | @on steps u total edge e walk listed found free ih =>
    have costU := walk.isCost_total formed
    have costE := formed.cost found
    have shorter := magnitude_le_add costU costE
    obtain ⟨member, du, atU, le⟩ := ih (Nat.lt_of_le_of_lt shorter finite)
    have offer := magnitude_add_mono (spans.isCost_distance atU) costU costE le
    obtain ⟨d, atV, least⟩ :=
      spans.settled member edge listed e found free du atU (Nat.lt_of_le_of_lt offer finite)
    exact ⟨spans.reached.mpr ⟨d, atV⟩, d, atV, Nat.le_trans least offer⟩

/-- The tree of a known vertex reaches the root and what walks of finite cost lead to, at the least cost of
such a walk, costs being added up and rounded from the root on. An unknown vertex has the empty tree. -/
theorem Network.cheapestTree_least (built : n.Built) (root : FeatureId) :
    (n.containsVertex root = false → n.cheapestTree root = .empty) ∧
      (n.containsVertex root = true → ∀ v,
        ((n.cheapestTree root).contains v = true ↔
          v = root ∨ ∃ steps total, n.Walk root steps v total ∧ total.isFinite = true) ∧
        ((n.cheapestTree root).contains v = true → ∃ d, (n.cheapestTree root).distance? v = some d ∧
          (∃ steps, n.Walk root steps v d) ∧ d.isFinite = true ∧
            ∀ steps total, n.Walk root steps v total → total.isFinite = true → d ≤ total)) := by
  have formed := built.wellFormed
  refine ⟨fun unknown => by rw [cheapestTree, unknown]; rfl, fun known v => ?_⟩
  obtain ⟨order, spans⟩ := exists_spans formed known
  refine ⟨⟨fun contained => ?_, fun reachable => ?_⟩, fun contained => ?_⟩
  · obtain ⟨d, atV⟩ := spans.reached.mp (spans.contains.mp contained)
    obtain ⟨finite, _, steps, walk⟩ := spans.walked atV
    exact .inr ⟨steps, d, walk, isFinite_iff.mpr finite⟩
  · rw [spans.contains]
    rcases reachable with same | ⟨steps, total, walk, finite⟩
    · exact same ▸ spans.rooted
    · exact (spans.least formed walk (isFinite_iff.mp finite)).1
  · obtain ⟨d, atV⟩ := spans.reached.mp (spans.contains.mp contained)
    obtain ⟨finite, positive, steps, walk⟩ := spans.walked atV
    refine ⟨d, atV, ⟨steps, walk⟩, isFinite_iff.mpr finite, fun steps' total walk' finite' => ?_⟩
    obtain ⟨_, d', atV', least⟩ := spans.least formed walk' (isFinite_iff.mp finite')
    rw [atV] at atV'
    cases atV'
    exact (le_iff_magnitude (walk.isCost_total formed) (walk'.isCost_total formed)).mpr least

/-- Two short connections beside a long one, and one that is never travelled. -/
def Network.bypass : Network := (ofConnections
  [.bidirectional 1 2 12 (.ofInt 1), .bidirectional 2 3 23 (.ofInt 2), .bidirectional 1 3 13 (.ofInt 10),
    .directed 3 4 34 .infinity]).1

/-- The way round through the second vertex is the cheapest, and nothing leads to the fourth one. -/
theorem Network.cheapestTree_least_bypass :
    bypass.Built ∧ bypass.containsVertex 1 = true ∧ (bypass.cheapestTree 1).distance? 3 = some (.ofInt 3) ∧
      (∀ steps total, bypass.Walk 1 steps 3 total → total.isFinite = true → .ofInt 3 ≤ total) ∧
      ∀ steps total, bypass.Walk 1 steps 4 total → total.isFinite = false := by
  have built : bypass.Built := built_ofConnections _
  have known : bypass.containsVertex 1 = true := by decide +kernel
  have distance : (bypass.cheapestTree 1).distance? 3 = some (.ofInt 3) := by decide +kernel
  have tree := (cheapestTree_least built 1).2 known
  refine ⟨built, known, distance, ?_, fun steps total walk => ?_⟩
  · obtain ⟨d, atThree, _, _, least⟩ := (tree 3).2 (by decide +kernel)
    rw [← Option.some.inj (atThree.symm.trans distance)]
    exact least
  · cases finite : total.isFinite
    · rfl
    · have outside : (bypass.cheapestTree 1).contains 4 = false := by decide +kernel
      rw [(tree 4).1.mpr (.inr ⟨steps, total, walk, finite⟩)] at outside
      cases outside

end FeatureNet
