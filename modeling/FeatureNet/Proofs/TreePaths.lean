import FeatureNet.Proofs.CheapestTree
import FeatureNet.Proofs.WaysBack

namespace FeatureNet

open Binary64 Network

variable {n : Network} {root v : FeatureId} {order : List FeatureId} {t : PathTree} {d : Binary64}

theorem PathTree.Parent.back (formed : n.WellFormed) {u edge : FeatureId} {e : Edge} {du : Binary64}
    (step : t.Parent n order v d u edge e du) : e.opposite v = u := by
  obtain ⟨e', found, leaves⟩ := formed.listed.mp step.listed
  rw [step.found] at found
  cases found
  rw [← step.across, e.eq_opposite leaves]

/-- The edge recorded for a vertex other than the root is its last step. -/
theorem PathTree.Spans.parent_of_recorded (formed : n.WellFormed) (spans : t.Spans n root order)
    (atV : t.distance? v = some d) (notRoot : v ≠ root) {edge : FeatureId} {e : Edge}
    (reached : t.predecessor? v = some (some edge)) (found : n.edge? edge = some e) :
    ∃ du, t.Parent n order v d (e.opposite v) edge e du := by
  obtain ⟨u, edge', e', du, step⟩ := spans.parent atV notRoot
  cases reached.symm.trans step.predecessor
  cases found.symm.trans step.found
  exact ⟨du, (step.back formed).symm ▸ step⟩

/-- A walk without repeats stays one if it goes on to a vertex that it has not passed. -/
theorem Network.loopless_concat {steps : List Step} {s : Step} (loopless : (root :: steps.map (·.vertex)).Nodup)
    (fresh : s.vertex ∉ root :: steps.map (·.vertex)) : (root :: (steps ++ [s]).map (·.vertex)).Nodup := by
  rw [List.map_append, List.map_singleton, ← List.cons_append, ← List.concat_eq_append]
  exact loopless.concat fresh

/-- The way back from a vertex, turned round, is a walk to it, and the visits on the walk are ever later
ones, so that the way ends before the bound on its length. -/
theorem PathTree.Spans.exists_wayBack (formed : n.WellFormed) (spans : t.Spans n root order)
    (atV : t.distance? v = some d) :
    ∃ steps, n.WayBack t root v steps.reverse ∧ n.Walk root steps v d ∧
      ∀ s ∈ steps, s.vertex ∈ order ∧ order.idxOf s.vertex ≤ order.idxOf v := by
  induction place : order.idxOf v using Nat.strong_induction_on generalizing v d with
  | h place ih =>
    by_cases same : v = root
    · subst same
      rw [spans.start] at atV
      cases atV
      exact ⟨[], .arrived, .here, by simp⟩
    · obtain ⟨u, edge, e, du, step⟩ := spans.parent atV same
      have member := spans.reached.mpr ⟨d, atV⟩
      have earlier := step.earlier member
      obtain ⟨steps, way, walk, visits⟩ := ih _ (place ▸ earlier) step.distance rfl
      have last : (⟨e.opposite u, some edge⟩ : Step) = ⟨v, some edge⟩ := by rw [step.across]
      have onward := walk.on step.listed step.found (step.across.symm ▸ step.free)
      rw [last, ← step.sum, step.across] at onward
      refine ⟨steps ++ [⟨v, some edge⟩], ?_, onward, fun s isStep => ?_⟩
      · rw [List.reverse_append]
        exact .step same step.predecessor step.found ((step.back formed).symm ▸ way)
      · rcases List.mem_append.mp isStep with before | now
        · obtain ⟨visited, le⟩ := visits s before
          exact ⟨visited, by omega⟩
        · rw [List.mem_singleton.mp now]
          exact ⟨member, Nat.le_of_eq place⟩

/-- The path to a vertex of the tree. -/
theorem PathTree.Spans.pathTo (formed : n.WellFormed) (spans : t.Spans n root order)
    (atV : t.distance? v = some d) :
    ∃ steps, n.pathTo t v = ⟨⟨root, none⟩ :: steps⟩ ∧ n.Walk root steps v d ∧
      (root :: steps.map (·.vertex)).Nodup := by
  obtain ⟨steps, way, walk, _⟩ := spans.exists_wayBack formed atV
  have path := way.pathTo spans.root_eq (spans.contains.mpr (spans.reached.mpr ⟨d, atV⟩))
  have nodup := way.nodup_vertices
  rw [List.reverse_reverse] at path nodup
  exact ⟨steps, path, walk, nodup⟩

theorem PathTree.Spans.pathTo_eq_empty (spans : t.Spans n root order) (outside : v ∉ order) :
    n.pathTo t v = .empty := by
  unfold Network.pathTo
  rw [spans.root_eq]
  exact if_neg fun contained => outside (spans.contains.mp contained)

/-- The cheapest path from a known vertex is a walk without repeats and of finite cost, and no walk to its
end costs less. -/
theorem Network.cheapestPath_cases (formed : n.WellFormed) (known : n.containsVertex root = true)
    (target : FeatureId) :
    (∃ steps total, n.cheapestPath root target = ⟨⟨root, none⟩ :: steps⟩ ∧ n.Walk root steps target total ∧
      (root :: steps.map (·.vertex)).Nodup ∧ total.magnitude < infiniteMagnitude ∧
        ∀ steps' total', n.Walk root steps' target total' → total.magnitude ≤ total'.magnitude) ∨
    n.cheapestPath root target = .empty ∧
      ∀ steps total, n.Walk root steps target total → infiniteMagnitude ≤ total.magnitude := by
  obtain ⟨order, spans⟩ := exists_spans formed known
  by_cases inside : target ∈ order
  · obtain ⟨total, atTarget⟩ := spans.reached.mp inside
    obtain ⟨steps, path, walk, nodup⟩ := spans.pathTo formed atTarget
    have finite := (spans.walked atTarget).1
    refine .inl ⟨steps, total, path, walk, nodup, finite, fun steps' total' walk' => ?_⟩
    by_cases finite' : total'.magnitude < infiniteMagnitude
    · obtain ⟨_, d, atTarget', least⟩ := spans.least formed walk' finite'
      rw [atTarget] at atTarget'
      cases atTarget'
      exact least
    · omega
  · refine .inr ⟨spans.pathTo_eq_empty inside, fun steps total walk => ?_⟩
    apply Nat.le_of_not_lt
    intro finite
    exact inside (spans.least formed walk finite).1

end FeatureNet
