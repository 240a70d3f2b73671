import FeatureNet.Binary64
import FeatureNet.IdMap

namespace FeatureNet

/-- The tree of cheapest paths from one root: for every vertex reached its distance and the edge that
leads to it. The root is reached without an edge. -/
structure PathTree where
  root : Option FeatureId
  predecessors : IdMap (Option FeatureId)
  distances : IdMap Binary64
deriving DecidableEq

namespace PathTree

/-- The tree that reaches nothing. -/
def empty : PathTree := ⟨none, .empty, .empty⟩

instance : Inhabited PathTree := ⟨empty⟩

def rooted (root : FeatureId) : PathTree where
  root := some root
  predecessors := IdMap.empty.insert root none
  distances := IdMap.empty.insert root Binary64.zero

/-- Reaches a vertex through an edge, in place of an earlier way. -/
def reach (t : PathTree) (vertex edge : FeatureId) (distance : Binary64) : PathTree :=
  { t with
    predecessors := t.predecessors.insert vertex (some edge)
    distances := t.distances.insert vertex distance }

def contains (t : PathTree) (vertex : FeatureId) : Bool := t.predecessors.contains vertex

/-- The edge leading to a vertex: none if it is not reached, an inner none at the root. -/
def predecessor? (t : PathTree) (vertex : FeatureId) : Option (Option FeatureId) :=
  t.predecessors.get? vertex

def distance? (t : PathTree) (vertex : FeatureId) : Option Binary64 := t.distances.get? vertex

def size (t : PathTree) : Nat := t.predecessors.size

def isEmpty (t : PathTree) : Bool := t.predecessors.isEmpty

end PathTree

end FeatureNet
