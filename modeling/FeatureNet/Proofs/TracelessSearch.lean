import FeatureNet.Proofs.RankedPaths
import FeatureNet.Proofs.SessionRuns

namespace FeatureNet

namespace Ranking

variable {n : Network} {r r' : Ranking} {target : FeatureId}

/-- The network is the one searched, and every path waits in the pool at its cost in that network: the
scope of a spur is closed before the path found is costed. -/
structure Costed (n : Network) (r : Ranking) : Prop where
  network : r.network = n
  pooled {cost p} : r.pool.Holds cost p → cost = n.pathCost p

theorem Costed.leaveAt (costed : r.Costed n) (target : FeatureId) (spur : List Step × Step) :
    (leaveAt target r spur).Costed n := by
  rw [leaveAt_eq]
  split
  · exact costed
  · next p found =>
    refine ⟨costed.network, fun holds => ?_⟩
    rcases Frontier.holds_of_push holds with ⟨rfl, rfl⟩ | old
    · rw [costed.network]
    · exact costed.pooled old

theorem Costed.leaveAll (costed : r.Costed n) (target : FeatureId) (spurs : List (List Step × Step)) :
    (spurs.foldl (Ranking.leaveAt target) r).Costed n := by
  induction spurs generalizing r with
  | nil => exact costed
  | cons spur spurs ih => exact ih (costed.leaveAt target spur)

theorem Costed.advance (costed : r.Costed n) (next : advance? target r = some r') : r'.Costed n := by
  have explored : (r.explore target).Costed n := costed.leaveAll target _
  obtain ⟨network, _, _, pool, taken, left⟩ := advance?_eq_some next
  refine ⟨network.trans costed.network, fun holds => ?_⟩
  rw [left] at holds
  exact explored.pooled (Frontier.holds_of_popMin taken (Frontier.holds_retain.mp holds).1)

theorem Costed.accept (costed : r.Costed n) (target : FeatureId) (more : Nat) :
    (accept target more r).Costed n := by
  obtain ⟨last, costed', _, ⟨run, _⟩ | ⟨run, _⟩⟩ := exists_last costed Costed.advance more
  · exact run ▸ costed'
  · exact run ▸ costed'.leaveAll target _

end Ranking

namespace Session

/-- The calls that ask for routes. -/
inductive Call.Asks : Call → Prop
  | alternatives (source target : FeatureId) (count : Nat) : Asks (.alternatives source target count)
  | routing (source target : FeatureId) (count : Nat) : Asks (.routing source target count)

theorem Call.Asks.after_eq {c : Call} (asks : c.Asks) (s : Session) : s.after c = s := by
  cases asks with
  | alternatives => exact s.after_alternatives ..
  | routing => exact s.after_routing ..

/-- Whatever the network and whatever is asked for, the search for alternatives gives back the network it was
given, and at each point of it, after any number of paths accepted and any spurs left, every path in the
pool waits at its cost in that network. So a session that answers questions stays the same, and its network
has the fingerprints that it had before. -/
theorem questions_traceless :
    (∀ (n : Network) (source target : FeatureId) (count : Nat),
      (n.alternatives source target count).2 = n ∧
        ∀ (more : Nat) (spurs : List (List Step × Step)),
          (spurs.foldl (Ranking.leaveAt target)
            (Ranking.accept target more ⟨n, [], n.cheapestPath source target, .empty⟩)).Costed n) ∧
      ∀ (s : Session) (questions : List Call), (∀ c ∈ questions, c.Asks) →
        questions.foldl after s = s ∧
          ∀ n, s.network = some n → ∃ m, (questions.foldl after s).network = some m ∧
            m.verify n.fingerprint = true ∧ ∀ f, n.verify f = true → m.verify f = true := by
  constructor
  · intro n source target count
    have first : Ranking.Costed n ⟨n, [], n.cheapestPath source target, .empty⟩ :=
      ⟨rfl, fun holds => absurd holds Frontier.not_holds_empty⟩
    exact ⟨n.network_alternatives source target count,
      fun more spurs => (first.accept target more).leaveAll target spurs⟩
  · intro s questions each
    have same : questions.foldl after s = s := by
      induction questions with
      | nil => rfl
      | cons c rest ih =>
        rw [List.foldl_cons, (each c (List.mem_cons_self ..)).after_eq]
        exact ih fun d member => each d (List.mem_cons_of_mem _ member)
    rw [same]
    exact ⟨rfl, fun n prepared => ⟨n, prepared, by simp [Network.verify], fun _ => id⟩⟩

/-- A session whose network has two edges beside each other, one of them at no finite cost, and a blocked
vertex. -/
def questioned : Session :=
  (start (.memory (.ofList [3])) .standard).after (.prepare
    [.bidirectional 1 2 12 (.ofInt 1), .bidirectional 1 2 120 .infinity, .bidirectional 2 3 23 .zero])

/-- A search that hides both edges, and one for a vertex that is not there. -/
theorem questions_traceless_questioned :
    (∀ c ∈ [Call.alternatives 1 2 3, .routing 1 9 2], c.Asks) ∧
      [Call.alternatives 1 2 3, .routing 1 9 2].foldl after questioned = questioned ∧
      (questioned.alternatives 1 2 3).1.map (fun paths => paths.map (·.edges)) = .ok [[12]] := by
  have asks : ∀ c ∈ [Call.alternatives 1 2 3, .routing 1 9 2], c.Asks := by
    intro c member
    rcases List.mem_cons.mp member with rfl | second
    · exact .alternatives ..
    · rw [List.mem_singleton.mp second]
      exact .routing ..
  obtain ⟨same, _⟩ := questions_traceless.2 questioned _ asks
  exact ⟨asks, same, by decide +kernel⟩

end Session

end FeatureNet
