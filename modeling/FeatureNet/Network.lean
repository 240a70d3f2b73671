import FeatureNet.Binary64.Rounding
import FeatureNet.Decimal.Layout
import FeatureNet.IdMap
import FeatureNet.Path

namespace FeatureNet

/-- A vertex lists the edges that leave it in the order in which they were added. -/
structure Vertex where
  blocked : Bool
  outgoing : List FeatureId
deriving DecidableEq

namespace Vertex

/-- Lists one more edge that leaves the vertex. -/
def leave (v : Vertex) (edge : FeatureId) : Vertex := { v with outgoing := v.outgoing ++ [edge] }

end Vertex

/-- An edge leaves its source, and its target too if it goes both ways. -/
structure Edge where
  id : FeatureId
  source : FeatureId
  target : FeatureId
  bidirectional : Bool
  /-- The cost of every traversal, whichever way. -/
  cost : Binary64
  inverseCost : Binary64
deriving DecidableEq

namespace Edge

/-- The end on the other side of a vertex; from a vertex that is not the source it is the source. -/
def opposite (e : Edge) (v : FeatureId) : FeatureId := if v = e.source then e.target else e.source

end Edge

inductive NetworkError
  | vertexNotFound (id : FeatureId)
  | duplicateEdge (id : FeatureId)
  | alreadyBlocked (id : FeatureId)
  | notBlocked (id : FeatureId)
  | invalidCost (edge : FeatureId) (cost : Binary64)
deriving DecidableEq

/-- Costs in messages are written without exponents, whole ones without a point. -/
def costLayout : Decimal.Layout where
  tie := .up
  positional _ := true
  fraction := false

def costText (x : Binary64) : String :=
  if x.isNaN then "NaN"
  else if x.isInfinite then if x.negative then "-inf" else "inf"
  else String.ofList (costLayout.text x)

def NetworkError.message : NetworkError → String
  | vertexNotFound id => "Vertex not found: " ++ id.text
  | duplicateEdge id => "Duplicate edge: " ++ id.text
  | alreadyBlocked id => "Vertex already blocked: " ++ id.text
  | notBlocked id => "Vertex not blocked: " ++ id.text
  | invalidCost edge cost => "Invalid cost " ++ costText cost ++ " on edge " ++ edge.text

structure Network where
  vertices : IdMap Vertex
  edges : IdMap Edge
deriving DecidableEq

namespace Network

def empty : Network := ⟨.empty, .empty⟩

instance : Inhabited Network := ⟨empty⟩

def vertex? (n : Network) (id : FeatureId) : Option Vertex := n.vertices.get? id

def edge? (n : Network) (id : FeatureId) : Option Edge := n.edges.get? id

def containsVertex (n : Network) (id : FeatureId) : Bool := n.vertices.contains id

def containsEdge (n : Network) (id : FeatureId) : Bool := n.edges.contains id

/-- The edges that leave a vertex, in the order in which they were added; none for an unknown vertex. -/
def outgoing (n : Network) (id : FeatureId) : List FeatureId :=
  ((n.vertex? id).map (·.outgoing)).getD []

def edgeCost? (n : Network) (id : FeatureId) : Option Binary64 := (n.edge? id).map (·.cost)

/-- The costs of a path's edges added up in path order; edges that are not in the network add nothing. -/
def pathCost (n : Network) (p : Path) : Binary64 := Binary64.sum (p.edges.filterMap n.edgeCost?)

/-- Adds an unblocked vertex without edges, unless it is there already. -/
def addVertex (n : Network) (id : FeatureId) : Network :=
  if n.containsVertex id then n else { n with vertices := n.vertices.insert id ⟨false, []⟩ }

/-- Numbers from zero on, infinity too, are costs; negative numbers and not-a-numbers are none. -/
def isCost (x : Binary64) : Bool := !(x.isNaN || x < Binary64.zero)

/-- Lists an edge at the ends that it leaves; one that joins a vertex to itself is listed once. -/
def listEdge (vertices : IdMap Vertex) (e : Edge) : IdMap Vertex :=
  let vertices := vertices.modify e.source (·.leave e.id)
  if e.bidirectional && e.target ≠ e.source then vertices.modify e.target (·.leave e.id)
  else vertices

/-- Adds an edge of a new id and an acceptable cost between two vertices of the network. -/
def addEdge (n : Network) (e : Edge) : Except NetworkError Network :=
  if n.containsEdge e.id then .error (.duplicateEdge e.id)
  else if !isCost e.cost then .error (.invalidCost e.id e.cost)
  else if !n.containsVertex e.source then .error (.vertexNotFound e.source)
  else if !n.containsVertex e.target then .error (.vertexNotFound e.target)
  else .ok { vertices := listEdge n.vertices e, edges := n.edges.insert e.id e }

/-- Puts any cost on an edge, without a check. -/
def setCost (n : Network) (id : FeatureId) (cost : Binary64) : Network :=
  { n with edges := n.edges.modify id fun e => { e with cost } }

end Network

end FeatureNet
