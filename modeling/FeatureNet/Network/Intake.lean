import FeatureNet.Connection
import FeatureNet.Network

namespace FeatureNet

structure Rejection where
  /-- How many connections came before. -/
  index : Nat
  connection : Connection
  error : NetworkError
deriving DecidableEq

structure Report where
  read : Nat
  verticesAdded : Nat
  edgesAdded : Nat
  rejections : List Rejection
deriving DecidableEq

namespace Report

def empty : Report := ⟨0, 0, 0, []⟩

def isClean (r : Report) : Bool := r.rejections.isEmpty

end Report

namespace Connection

/-- The edge of a connection. Its source is the end from which it is travelled, so that a connection from
target to source changes its ends. -/
def edge (c : Connection) : Edge where
  id := c.connector
  source := if c.direction = .targetToSource then c.target else c.source
  target := if c.direction = .targetToSource then c.source else c.target
  bidirectional := c.direction = .bidirectional
  cost := c.cost
  inverseCost := c.inverseCost

end Connection

/-- The network built so far and the report on it. A connection that gives no edge is rejected; its ends
become vertices all the same. -/
structure Intake where
  network : Network
  report : Report

namespace Intake

def start : Intake := ⟨.empty, .empty⟩

def addVertex (i : Intake) (id : FeatureId) : Intake :=
  if i.network.containsVertex id then i
  else
    { network := i.network.addVertex id
      report := { i.report with verticesAdded := i.report.verticesAdded + 1 } }

/-- The network with a connection's edge. A bad cost is found before a repeated id. -/
def addConnection (n : Network) (c : Connection) : Except NetworkError Network :=
  if Network.isCost c.cost then n.addEdge c.edge else .error (.invalidCost c.connector c.cost)

def push (i : Intake) (c : Connection) : Intake :=
  let index := i.report.read
  let i := { i with report := { i.report with read := index + 1 } }
  let i := (i.addVertex c.source).addVertex c.target
  match addConnection i.network c with
  | .ok network =>
    { network, report := { i.report with edgesAdded := i.report.edgesAdded + 1 } }
  | .error error =>
    { i with report := { i.report with
        rejections := i.report.rejections ++ [⟨index, c, error⟩] } }

def extend (i : Intake) (connections : List Connection) : Intake := connections.foldl push i

end Intake

/-- The network of a list of connections, with the report on them. -/
def Network.ofConnections (connections : List Connection) : Network × Report :=
  let i := Intake.start.extend connections
  (i.network, i.report)

end FeatureNet
