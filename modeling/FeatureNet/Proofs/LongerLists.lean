import FeatureNet.Proofs.DistinctPaths
import FeatureNet.Session.Result

namespace FeatureNet

open Network

namespace Session

variable {s : Session}

/-- The routes of the paths that the search for alternatives gives, also if one is asked for. -/
def searchedRouting (source target : FeatureId) (count : Nat) (s : Session) :
    Except SessionError RouteSet × Session :=
  let (found, s) := s.alternatives source target count
  let result := do
    let paths ← found
    let n ← s.prepared
    return { source, target, requested := count, routes := n.routes paths }
  (result, s)

/-- The search for one alternative gives the cheapest path, and no path if there is none. -/
theorem alternatives_one (allowed : 0 < s.config.maxCount) (source target : FeatureId) :
    s.alternatives source target 1 =
      ((s.cheapestPath source target).map fun p => if p.isEmpty then [] else [p], s) := by
  have inRange : ¬(1 = 0 ∨ s.config.maxCount < 1) := by omega
  unfold alternatives cheapestPath prepared
  rw [if_neg inRange]
  cases prepared : s.network with
  | none => rfl
  | some n =>
    dsimp only [Except.map]
    rw [network_alternatives, ← prepared]
    unfold Network.alternatives
    dsimp only
    split <;> rfl

/-- Of the alternatives up to some number the first ones, and no others, are the alternatives up to a
smaller number, whatever the network: what a round of the search accepts does not depend on how many are
still to come. So where a session may search for alternatives at all, its answer is that of the search,
the same routes or the same error, also if it finds the one route asked for without searching. -/
theorem alternatives_extended :
    (∀ (n : Network) (source target : FeatureId) (count more : Nat), count ≤ more →
      (n.alternatives source target count).1 = (n.alternatives source target more).1.take count) ∧
    ∀ s : Session, 0 < s.config.maxCount → ∀ (source target : FeatureId) (count : Nat),
      s.routing source target count = s.searchedRouting source target count := by
  refine ⟨fun n source target count more le => n.alternatives_take source target le,
    fun s allowed source target count => ?_⟩
  unfold routing searchedRouting
  by_cases single : count = 1
  · subst single
    rw [if_pos rfl, alternatives_one allowed]
  · rw [if_neg single]

/-- Three ways of one cost to the third vertex, two of them past the second one. -/
def ferries : Network := (ofConnections
  [.bidirectional 1 2 12 (.ofInt 1), .bidirectional 1 2 120 (.ofInt 1), .bidirectional 2 3 23 (.ofInt 1),
    .directed 1 3 13 (.ofInt 2)]).1

/-- A session that allows one alternative at most. -/
def sparing : Session := ⟨.memory (.ofList []), { Config.standard with maxCount := 1 }, some ferries⟩

/-- Of the three ways the first two are those that a search for two gives, and the first alone is the route that
the session answers with. -/
theorem alternatives_extended_ferries :
    2 ≤ 9 ∧ (ferries.alternatives 1 3 9).1.map (·.edges) = [[13], [12, 23], [120, 23]] ∧
      (ferries.alternatives 1 3 2).1 = (ferries.alternatives 1 3 9).1.take 2 ∧
      0 < sparing.config.maxCount ∧ sparing.routing 1 3 1 = sparing.searchedRouting 1 3 1 ∧
      (sparing.routing 1 3 1).1.map (fun found => found.routes.map (·.path.edges)) = .ok [[13]] := by
  obtain ⟨longer, searched⟩ := alternatives_extended
  exact ⟨by decide, by decide +kernel, longer ferries 1 3 2 9 (by decide), by decide,
    searched sparing (by decide) 1 3 1, by decide +kernel⟩

end Session

end FeatureNet
