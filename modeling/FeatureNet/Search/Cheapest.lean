import FeatureNet.Frontier
import FeatureNet.Network.Blocking
import FeatureNet.PathTree
import FeatureNet.Search.Unvisited

namespace FeatureNet

/-- A search from one vertex. Vertices are visited in order of distance, and each edge of the vertex
visited offers its other end a distance. -/
structure Search where
  tree : PathTree
  visited : IdSet
  frontier : Frontier FeatureId

namespace Search

def start (root : FeatureId) : Search where
  tree := .rooted root
  visited := .empty
  frontier := Frontier.empty.push Binary64.zero root

/-- The distance known of a vertex, infinite before it is reached. -/
def known (s : Search) (v : FeatureId) : Binary64 := (s.tree.distance? v).getD Binary64.infinity

/-- Offers the other end of an edge the distance through that edge, which is taken if it is less than the
one known. Blocked vertices are offered nothing, while the start itself may be blocked. -/
def relax (n : Network) (u : FeatureId) (distance : Binary64) (s : Search) (edge : FeatureId) :
    Search :=
  match n.edge? edge with
  | none => s
  | some e =>
    let v := e.opposite u
    let offer := distance + e.cost
    if v ∉ s.visited ∧ offer < s.known v ∧ n.isBlocked v = false then
      { s with tree := s.tree.reach v edge offer, frontier := s.frontier.push offer v }
    else s

def visit (n : Network) (s : Search) (u : FeatureId) (distance : Binary64) : Search :=
  (n.outgoing u).foldl (relax n u distance) { s with visited := s.visited.insert u }

theorem visited_relax (n : Network) (u : FeatureId) (distance : Binary64) (s : Search)
    (edge : FeatureId) : (relax n u distance s edge).visited = s.visited := by
  unfold relax
  split
  · rfl
  · dsimp only; split <;> rfl

theorem size_frontier_relax (n : Network) (u : FeatureId) (distance : Binary64) (s : Search)
    (edge : FeatureId) : (relax n u distance s edge).frontier.size ≤ s.frontier.size + 1 := by
  unfold relax
  split
  · omega
  · dsimp only
    split
    · exact Frontier.size_push_le ..
    · omega

theorem foldl_relax_bounds (n : Network) (u : FeatureId) (distance : Binary64)
    (edges : List FeatureId) (s : Search) :
    (edges.foldl (relax n u distance) s).visited = s.visited ∧
      (edges.foldl (relax n u distance) s).frontier.size ≤ s.frontier.size + edges.length := by
  induction edges generalizing s with
  | nil => simp
  | cons edge rest ih =>
    obtain ⟨visited, size⟩ := ih (relax n u distance s edge)
    have step := size_frontier_relax n u distance s edge
    simp only [List.foldl_cons, visited, visited_relax, List.length_cons, true_and]
    omega

/-- What is left to do: the entries of the frontier and those that unvisited vertices may still add. -/
def remaining (n : Network) (s : Search) : Nat := n.unvisitedEdges s.visited + s.frontier.size

theorem remaining_visit (n : Network) (s : Search) {u : FeatureId} (distance : Binary64)
    (fresh : u ∉ s.visited) : (s.visit n u distance).remaining n ≤ s.remaining n := by
  obtain ⟨visited, size⟩ :=
    foldl_relax_bounds n u distance (n.outgoing u) { s with visited := s.visited.insert u }
  have counted := n.unvisitedEdges_insert fresh
  dsimp only at size
  simp only [remaining, visit, visited]
  omega

/-- Takes entries off the frontier until it is empty. An entry of a vertex visited before is stale. -/
def run (n : Network) (s : Search) : PathTree :=
  match _taken : s.frontier.popMin? with
  | none => s.tree
  | some ((distance, u), frontier) =>
    if _stale : u ∈ s.visited then run n { s with frontier }
    else run n (visit n { s with frontier } u distance)
termination_by s.remaining n
decreasing_by
  · have := Frontier.size_of_popMin? _taken
    simp only [remaining]
    omega
  · have taken := Frontier.size_of_popMin? _taken
    have bound := remaining_visit n { s with frontier } distance _stale
    simp only [remaining] at bound ⊢
    omega

end Search

namespace Network

/-- The tree of cheapest paths from a vertex; an unknown vertex reaches nothing. -/
def cheapestTree (n : Network) (root : FeatureId) : PathTree :=
  if n.containsVertex root then (Search.start root).run n else .empty

/-- The steps from a vertex back to the root, the last first, by at most `left` edges of the tree. -/
def stepsBack (n : Network) (t : PathTree) (root : FeatureId) (left : Nat) (v : FeatureId) :
    Option (List Step) :=
  if v = root then some []
  else
    match left with
    | 0 => none
    | left + 1 => do
      let edge ← (← t.predecessor? v)
      let e ← n.edge? edge
      let earlier ← stepsBack n t root left (e.opposite v)
      return ⟨v, some edge⟩ :: earlier

/-- The path of a tree to a vertex, empty if the tree does not lead there through edges of the network.
No path has more edges than the tree has vertices, so a longer way back is not the tree's. -/
def pathTo (n : Network) (t : PathTree) (target : FeatureId) : Path :=
  match t.root with
  | none => .empty
  | some root =>
    if t.contains target then
      match stepsBack n t root t.size target with
      | none => .empty
      | some back => ⟨⟨root, none⟩ :: back.reverse⟩
    else .empty

/-- The cheapest path between two vertices, empty if there is none. -/
def cheapestPath (n : Network) (source target : FeatureId) : Path :=
  n.pathTo (n.cheapestTree source) target

end Network

end FeatureNet
