import FeatureNet.Exchange.Request
import FeatureNet.Proofs.ExhaustedPaths
import FeatureNet.Proofs.FoundDetours
import FeatureNet.Proofs.SessionRuns

namespace FeatureNet

open Binary64 Network

variable {n : Network} {source target : FeatureId}

namespace Network

/-- Every alternative after the first is a cheapest of the detours that wait when it is accepted. -/
theorem alternatives_chosen (formed : n.WellFormed) {count : Nat} {before after : List Path} {p : Path}
    (split : (n.alternatives source target count).1 = before ++ p :: after) (later : before ≠ []) :
    Ranking.Waits n target before p ∧
      ∀ detour, Ranking.Waits n target before detour → n.pathCost p ≤ n.pathCost detour := by
  obtain ⟨waits, precedes⟩ := (alternatives_ranked formed source target count).next split later
  refine ⟨waits, fun detour waits' => formed.pathCost_le_of_rank ?_⟩
  by_cases same : detour = p
  · rw [same]
  · rcases precedes detour waits' same with less | ⟨equal, _⟩
    · exact Int.le_of_lt less
    · rw [equal]

/-- Where no sum overflows, the paths that a search is after cost less than infinity. -/
theorem Admissible.isFinite_pathCost (formed : n.WellFormed) (finite : n.SumsFinite) {p : Path}
    (admissible : n.Admissible source target p) : (n.pathCost p).isFinite = true := by
  obtain ⟨steps, rfl⟩ := admissible.exists_steps
  have whole : n.Admissible source target ⟨[] ++ ⟨source, none⟩ :: steps⟩ := admissible
  obtain ⟨⟨total, walk⟩, nodup, passable⟩ := whole.onward
  rw [isFinite_iff, walk.magnitude_pathCost formed, ← isFinite_iff]
  exact finite _ _ _ _ walk nodup passable

theorem isFinite_cheapestPath (formed : n.WellFormed) (known : n.containsVertex source = true)
    (target : FeatureId) (found : (n.cheapestPath source target).isEmpty = false) :
    (n.pathCost (n.cheapestPath source target)).isFinite = true := by
  rcases cheapestPath_cases formed known target with ⟨steps, total, path, walk, _, finite, _⟩ | ⟨path, _⟩
  · rw [path, isFinite_iff, walk.magnitude_pathCost formed]
    exact finite
  · rw [path] at found
    cases found

end Network

/-- A session answers with the alternatives as routes, one alone or several. -/
theorem Session.routes_routing {s : Session} (prepared : s.network = some n) {count : Nat}
    {found : RouteSet} (answered : (s.routing source target count).1 = .ok found) :
    found.routes = n.routes (n.alternatives source target count).1 := by
  unfold Session.routing at answered
  by_cases single : count = 1
  · subst single
    simp only [if_true, Session.cheapestPath, Session.prepared, prepared] at answered
    cases Except.ok.inj answered
    unfold Network.alternatives
    dsimp only
    split <;> rfl
  · simp only [if_neg single, Session.alternatives, prepared] at answered
    split at answered
    · cases answered
    · dsimp only [Session.prepared] at answered
      cases Except.ok.inj answered
      rw [network_alternatives]

namespace Network

theorem map_cost_routes (n : Network) (paths : List Path) :
    (n.routes paths).map (·.cost) = paths.map n.pathCost := by
  refine List.ext_getElem? fun i => ?_
  rw [routes, List.getElem?_map, List.getElem?_mapIdx, List.getElem?_map, Option.map_map]
  rfl

/-- An alternative costs less than infinity exactly if it is the first or some detour that costs less than
infinity waits when it is accepted: a detour is found by its cost from the spur on, which is finite, and
may cost infinity behind its root. So they all do where no sum of finite costs overflows; and the routes
of a session cost what the alternatives cost. -/
theorem alternatives_finite_iff (built : n.Built) (source target : FeatureId) (count : Nat) :
    (∀ before p after, (n.alternatives source target count).1 = before ++ p :: after →
      ((n.pathCost p).isFinite = true ↔ before = [] ∨
        ∃ detour, Ranking.Waits n target before detour ∧ (n.pathCost detour).isFinite = true)) ∧
      (n.SumsFinite → ∀ p ∈ (n.alternatives source target count).1, (n.pathCost p).isFinite = true) ∧
      ∀ (s : Session) (found : RouteSet), s.network = some n →
        (s.routing source target count).1 = .ok found →
          found.routes.map (·.cost) = (n.alternatives source target count).1.map n.pathCost := by
  have formed := built.wellFormed
  refine ⟨fun before p after split => ?_, fun finite p member => ?_, fun s found prepared answered => ?_⟩
  · cases before with
    | nil =>
      refine iff_of_true ?_ (.inl rfl)
      have first := n.head?_alternatives source target count
      rw [split, List.nil_append, List.head?_cons] at first
      split at first
      · cases first
      · next none =>
        rw [not_or, Bool.not_eq_true] at none
        cases known : n.containsVertex source with
        | false =>
          rw [alternatives_unknown known] at split
          exact absurd split.symm (by simp)
        | true =>
          rw [Option.some.inj first]
          exact isFinite_cheapestPath formed known target none.2
    | cons first before =>
      obtain ⟨waits, cheapest⟩ := alternatives_chosen formed split (List.cons_ne_nil _ _)
      refine ⟨fun finite => .inr ⟨p, waits, finite⟩, fun below => ?_⟩
      obtain ⟨detour, waits', finite⟩ := below.resolve_left (List.cons_ne_nil _ _)
      rw [isFinite_iff] at finite ⊢
      exact Nat.lt_of_le_of_lt (formed.pathCost_le_iff.mp (cheapest detour waits')) finite
  · cases known : n.containsVertex source with
    | false =>
      rw [alternatives_unknown known] at member
      exact absurd member List.not_mem_nil
    | true => exact ((alternatives_sound formed known target count).1 p member).isFinite_pathCost formed finite
  · rw [Session.routes_routing prepared answered, map_cost_routes]

/-- An edge of the greatest finite cost, and two ways on, of no cost and of that cost again. -/
def saturated : Network := (ofConnections
  [.directed 1 2 12 ⟨0x7FEFFFFFFFFFFFFF⟩, .directed 2 3 23 .zero,
    .directed 2 3 230 ⟨0x7FEFFFFFFFFFFFFF⟩]).1

/-- The dearer way is accepted at a cost of infinity, so nothing cheaper waits behind the cheapest way. -/
theorem alternatives_finite_iff_saturated :
    saturated.Built ∧ ∃ first second, (saturated.alternatives 1 3 2).1 = [first, second] ∧
      saturated.pathCost second = .infinity ∧
        ∀ detour, Ranking.Waits saturated 3 [first] detour → (saturated.pathCost detour).isFinite = false := by
  have built : saturated.Built := built_ofConnections _
  have both : (saturated.alternatives 1 3 2).1 =
      [⟨[⟨1, none⟩, ⟨2, some 12⟩, ⟨3, some 23⟩]⟩, ⟨[⟨1, none⟩, ⟨2, some 12⟩, ⟨3, some 230⟩]⟩] := by
    decide +kernel
  have dearer : saturated.pathCost ⟨[⟨1, none⟩, ⟨2, some 12⟩, ⟨3, some 230⟩]⟩ = .infinity := by decide +kernel
  refine ⟨built, _, _, both, dearer, fun detour waits => ?_⟩
  have condition := (alternatives_finite_iff built 1 3 2).1 [_] _ [] both
  cases below : (saturated.pathCost detour).isFinite with
  | false => rfl
  | true =>
    have finite := condition.mpr (.inr ⟨detour, waits, below⟩)
    rw [dearer] at finite
    exact absurd finite (by decide)

/-- Every edge costs less than infinity, and so does the way on by the dearer edge from the second vertex;
from the first vertex on it costs infinity, and it is given as a route whose cost has no text. -/
theorem alternatives_not_finite :
    saturated.Built ∧ (∀ e ∈ saturated.edges.entries, e.2.cost.isFinite = true) ∧
      (saturated.alternatives 1 3 2).1.map saturated.pathCost = [⟨0x7FEFFFFFFFFFFFFF⟩, .infinity] ∧
      (∃ found, (Session.routing 1 3 2 ⟨.memory (.ofList []), .standard, some saturated⟩).1 = .ok found ∧
        found.routes.map (fun route => (Json.Value.float route.cost).compactText) =
          ["1.7976931348623157e+308", "null"]) ∧
      ¬∀ p ∈ (saturated.alternatives 1 3 2).1, (saturated.pathCost p).isFinite = true := by
  refine ⟨built_ofConnections _, by decide +kernel, by decide +kernel, ?_, by decide +kernel⟩
  exact ⟨⟨1, 3, 2, saturated.routes (saturated.alternatives 1 3 2).1⟩, by decide +kernel, by decide +kernel⟩

end Network

end FeatureNet
