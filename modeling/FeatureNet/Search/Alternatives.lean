import FeatureNet.Search.Cheapest
import FeatureNet.Search.Hiding

namespace FeatureNet

/-- Paths accepted so far, and the pool of those that may come next. -/
structure Ranking where
  network : Network
  earlier : List Path
  latest : Path
  pool : Frontier Path

namespace Ranking

def accepted (r : Ranking) : List Path := r.earlier ++ [r.latest]

/-- Each step of a path but the last, with the steps before it. -/
def spurs (passed : List Step) : List Step → List (List Step × Step)
  | [] => []
  | [_] => []
  | step :: rest => (passed, step) :: spurs (passed ++ [step]) rest

/-- Hides the edge by which a path goes on after a root that it shares. -/
def hideNext (root : List Step) (h : Hiding) (p : Path) : Hiding :=
  if root.length < p.length && p.startsWith root then
    match p.steps[root.length]?.bind (·.edge) with
    | some edge => h.hide edge
    | none => h
  else h

/-- The scope in which the way on from a spur is looked for. Hiding the edges by which the accepted paths
of the same steps up to the spur go on makes it a new path, and hiding the edges that leave the vertices
before the spur keeps it from coming back to them. -/
def hideRoot (n : Network) (accepted : List Path) (passed : List Step) (spur : Step) : Hiding :=
  let h := accepted.foldl (hideNext (passed ++ [spur])) (Hiding.ofNetwork n)
  passed.foldl (fun h step => h.hideOutgoing step.vertex) h

/-- Pools the cheapest path that leaves the accepted ones at a spur, if there is one. It is costed after
the hidden edges have their own costs again. -/
def leaveAt (target : FeatureId) (r : Ranking) (spur : List Step × Step) : Ranking :=
  let scope := hideRoot r.network r.accepted spur.1 spur.2
  let onward := scope.network.cheapestPath spur.2.vertex target
  let r := { r with network := scope.close }
  if onward.isEmpty then r
  else
    let path : Path := ⟨spur.1 ++ spur.2 :: onward.steps.drop 1⟩
    { r with pool := r.pool.push (r.network.pathCost path) path }

/-- Pools the paths that leave the latest accepted one. -/
def explore (target : FeatureId) (r : Ranking) : Ranking :=
  (spurs [] r.latest.steps).foldl (leaveAt target) r

/-- Accepts up to so many paths more, each the cheapest of the pool; the pool's other entries with its
edges are dropped. -/
def accept (target : FeatureId) : Nat → Ranking → Ranking
  | 0, r => r
  | more + 1, r =>
    let r := r.explore target
    match r.pool.popMin? with
    | none => r
    | some ((_, path), pool) =>
      accept target more
        { r with
          earlier := r.accepted
          latest := path
          pool := pool.retain fun other => !other.sameEdges path }

end Ranking

namespace Network

/-- Up to `count` cheapest paths without repeated vertices, and the network as the search leaves it. Every
path after the first leaves an accepted one at some vertex, the spur, and is cheapest from there on. -/
def alternatives (n : Network) (source target : FeatureId) (count : Nat) : List Path × Network :=
  match count with
  | 0 => ([], n)
  | more + 1 =>
    let first := n.cheapestPath source target
    if first.isEmpty then ([], n)
    else
      let r := Ranking.accept target more ⟨n, [], first, .empty⟩
      (r.accepted, r.network)

end Network

end FeatureNet
