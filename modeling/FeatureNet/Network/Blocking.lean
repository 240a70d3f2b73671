import FeatureNet.Network

namespace FeatureNet

namespace Network

/-- No path passes a blocked vertex or ends at one. Unknown vertices are not blocked. -/
def isBlocked (n : Network) (id : FeatureId) : Bool := ((n.vertex? id).map (·.blocked)).getD false

def blockedVertices (n : Network) : List FeatureId :=
  (n.vertices.entries.filter fun e => e.2.blocked).map (·.1)

def setBlocked (n : Network) (id : FeatureId) (blocked : Bool) : Network :=
  { n with vertices := n.vertices.modify id fun v => { v with blocked } }

/-- A request that would change nothing is an error. -/
def checkBlock (n : Network) (id : FeatureId) : Except NetworkError Unit :=
  match n.vertex? id with
  | none => .error (.vertexNotFound id)
  | some v => if v.blocked then .error (.alreadyBlocked id) else .ok ()

def checkUnblock (n : Network) (id : FeatureId) : Except NetworkError Unit :=
  match n.vertex? id with
  | none => .error (.vertexNotFound id)
  | some v => if v.blocked then .ok () else .error (.notBlocked id)

def block (n : Network) (id : FeatureId) : Except NetworkError Network := do
  n.checkBlock id
  return n.setBlocked id true

def unblock (n : Network) (id : FeatureId) : Except NetworkError Network := do
  n.checkUnblock id
  return n.setBlocked id false

def unblockAll (n : Network) : Network :=
  { n with vertices := n.vertices.mapValues fun _ v => { v with blocked := false } }

end Network

end FeatureNet
