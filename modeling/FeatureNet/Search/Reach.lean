import FeatureNet.Network.Blocking
import FeatureNet.Search.Unvisited

namespace FeatureNet

structure Spread where
  reached : IdSet
  visited : IdSet
  queue : List FeatureId

namespace Spread

/-- Reaches an edge, and queues its other end unless that is visited or blocked. -/
def cross (n : Network) (u : FeatureId) (s : Spread) (edge : FeatureId) : Spread :=
  match n.edge? edge with
  | none => s
  | some e =>
    let v := e.opposite u
    { s with
      reached := s.reached.insert edge
      queue := if v ∉ s.visited ∧ n.isBlocked v = false then s.queue ++ [v] else s.queue }

def visit (n : Network) (s : Spread) (u : FeatureId) : Spread :=
  (n.outgoing u).foldl (cross n u) { s with visited := s.visited.insert u }

theorem foldl_cross_bounds (n : Network) (u : FeatureId) (edges : List FeatureId) (s : Spread) :
    (edges.foldl (cross n u) s).visited = s.visited ∧
      (edges.foldl (cross n u) s).queue.length ≤ s.queue.length + edges.length := by
  induction edges generalizing s with
  | nil => simp
  | cons edge rest ih =>
    obtain ⟨visited, length⟩ := ih (cross n u s edge)
    have step : (cross n u s edge).visited = s.visited ∧
        (cross n u s edge).queue.length ≤ s.queue.length + 1 := by
      unfold cross
      split
      · simp
      · refine ⟨rfl, ?_⟩
        dsimp only
        split <;> simp
    simp only [List.foldl_cons, visited, step.1, List.length_cons, true_and]
    omega

def remaining (n : Network) (s : Spread) : Nat := n.unvisitedEdges s.visited + s.queue.length

theorem remaining_visit (n : Network) (s : Spread) {u : FeatureId} (fresh : u ∉ s.visited) :
    (s.visit n u).remaining n ≤ s.remaining n := by
  obtain ⟨visited, length⟩ :=
    foldl_cross_bounds n u (n.outgoing u) { s with visited := s.visited.insert u }
  have counted := n.unvisitedEdges_insert fresh
  dsimp only at length
  simp only [remaining, visit, visited]
  omega

/-- Visits the queue from the front until it is empty. -/
def run (n : Network) (s : Spread) : IdSet :=
  match _taken : s.queue with
  | [] => s.reached
  | u :: queue =>
    if _seen : u ∈ s.visited then run n { s with queue }
    else run n (visit n { s with queue } u)
termination_by s.remaining n
decreasing_by
  · simp only [remaining, _taken, List.length_cons]
    omega
  · have bound := remaining_visit n { s with queue } _seen
    simp only [remaining, _taken, List.length_cons] at bound ⊢
    omega

end Spread

/-- The edges reached from a set of vertices without passing a blocked one. The seeds themselves serve
even if they are blocked. -/
def Network.reach (n : Network) (seeds : IdSet) : IdSet :=
  Spread.run n { reached := .empty, visited := .empty, queue := seeds.toList }

end FeatureNet
