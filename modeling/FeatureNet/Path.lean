import FeatureNet.FeatureId

namespace FeatureNet

structure Step where
  vertex : FeatureId
  edge : Option FeatureId
deriving DecidableEq

/-- The vertices passed, each with the edge that led to it. The first step has no edge, and the path
without steps says that there is no way. -/
structure Path where
  steps : List Step
deriving DecidableEq

namespace Path

def empty : Path := ⟨[]⟩

instance : Inhabited Path := ⟨empty⟩

def isEmpty (p : Path) : Bool := p.steps.isEmpty

/-- How many vertices are passed. -/
def length (p : Path) : Nat := p.steps.length

def start? (p : Path) : Option FeatureId := p.steps.head?.map (·.vertex)

def end? (p : Path) : Option FeatureId := p.steps.getLast?.map (·.vertex)

def vertices (p : Path) : List FeatureId := p.steps.map (·.vertex)

def edges (p : Path) : List FeatureId := p.steps.filterMap (·.edge)

/-- Whether two paths of one length take the same edges in the same order. -/
def sameEdges (p q : Path) : Bool := p.length = q.length && p.edges = q.edges

def startsWith (p : Path) (root : List Step) : Bool := p.steps.take root.length = root

end Path

end FeatureNet
