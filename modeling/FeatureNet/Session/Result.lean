import FeatureNet.Session

namespace FeatureNet

inductive FeatureKind
  | vertex
  | edge
deriving DecidableEq

namespace FeatureKind

def name : FeatureKind → String
  | vertex => "vertex"
  | edge => "edge"

def ofName? (name : String) : Option FeatureKind :=
  [vertex, edge].find? fun kind => kind.name = name

end FeatureKind

/-- One feature of a result, so that a layer can be drawn from the rows without the network. -/
structure Row where
  /-- The route that the row belongs to, counted from 1. -/
  route : Nat
  /-- The place of the row in its route, counted from 0. -/
  ordinal : Nat
  feature : FeatureId
  kind : FeatureKind
  /-- Whether the vertex was blocked when the question was asked; false for edges. -/
  blocked : Bool
deriving DecidableEq

structure Route where
  number : Nat
  cost : Binary64
  path : Path
  rows : List Row
deriving DecidableEq

/-- Finding no route, or fewer than asked for, is a result and not an error. -/
structure RouteSet where
  source : FeatureId
  target : FeatureId
  requested : Nat
  routes : List Route
deriving DecidableEq

namespace RouteSet

def isEmpty (r : RouteSet) : Bool := r.routes.isEmpty

/-- Whether fewer routes were found than asked for. -/
def isShort (r : RouteSet) : Bool := r.routes.length < r.requested

def rows (r : RouteSet) : List Row := r.routes.flatMap (·.rows)

end RouteSet

structure Distribution where
  emitters : IdSet
  edges : IdSet
  vertices : IdSet
  rows : List Row
deriving DecidableEq

namespace Network

/-- The rows of the steps of a route from an ordinal on: each step's edge, if it has one, and its
vertex. -/
def stepRows (n : Network) (route : Nat) : Nat → List Step → List Row
  | _, [] => []
  | ordinal, ⟨vertex, none⟩ :: rest =>
    ⟨route, ordinal, vertex, .vertex, n.isBlocked vertex⟩ :: stepRows n route (ordinal + 1) rest
  | ordinal, ⟨vertex, some edge⟩ :: rest =>
    ⟨route, ordinal, edge, .edge, false⟩ ::
      ⟨route, ordinal + 1, vertex, .vertex, n.isBlocked vertex⟩ ::
        stepRows n route (ordinal + 2) rest

def route (n : Network) (number : Nat) (path : Path) : Route where
  number
  cost := n.pathCost path
  path
  rows := n.stepRows number 0 path.steps

/-- Routes numbered in the order of the paths, from 1. -/
def routes (n : Network) (paths : List Path) : List Route :=
  paths.mapIdx fun i path => n.route (i + 1) path

/-- The end vertices of a set of edges. -/
def endpoints (n : Network) (edges : IdSet) : IdSet :=
  .ofList ((edges.toList.filterMap n.edge?).flatMap fun e => [e.source, e.target])

/-- What emitters supply: the edges reached and their ends, the vertices' rows before the edges'. -/
def distribution (n : Network) (emitters : IdSet) : Distribution :=
  let edges := n.reach emitters
  let vertices := n.endpoints edges
  let features := vertices.toList.map (fun v => (v, FeatureKind.vertex, n.isBlocked v)) ++
    edges.toList.map fun e => (e, FeatureKind.edge, false)
  { emitters, edges, vertices
    rows := features.mapIdx fun i (feature, kind, blocked) => ⟨1, i, feature, kind, blocked⟩ }

end Network

namespace Session

/-- The cheapest route, or up to `count` alternatives. A single route is found without the search for
alternatives and without regard to how many are allowed. -/
def routing (source target : FeatureId) (count : Nat) (s : Session) :
    Except SessionError RouteSet × Session :=
  let (found, s) :=
    if count = 1 then
      ((s.cheapestPath source target).map fun p => if p.isEmpty then [] else [p], s)
    else s.alternatives source target count
  let result := do
    let paths ← found
    let n ← s.prepared
    return { source, target, requested := count, routes := n.routes paths }
  (result, s)

def distribution (emitters : IdSet) (s : Session) : Except SessionError Distribution :=
  s.prepared.map fun n => n.distribution emitters

end Session

end FeatureNet
