import FeatureNet.Session.Result

namespace FeatureNet

inductive Request
  | routing (source target : FeatureId) (count : Nat)
  | distribution (emitters : IdSet)
  | block (vertices : List FeatureId)
  | unblock (vertices : List FeatureId)
  | unblockAll
deriving DecidableEq

inductive Response
  | routes (result : RouteSet)
  | distribution (result : Distribution)
  /-- The vertices blocked after a change to them. -/
  | blocked (vertices : List FeatureId)
deriving DecidableEq

namespace Session

/-- Does one thing for each vertex until one fails; what was done before that stays done. -/
def forEach (act : FeatureId → Session → Except SessionError Unit × Session) :
    List FeatureId → Session → Except SessionError Unit × Session
  | [], s => (.ok (), s)
  | v :: rest, s =>
    match act v s with
    | (.ok (), s) => forEach act rest s
    | (.error error, s) => (.error error, s)

/-- Answers a change with the vertices that are blocked after it. -/
def blockedAfter : Except SessionError Unit × Session → Except SessionError Response × Session
  | (.ok (), s) => (s.prepared.map fun n => .blocked n.blockedVertices, s)
  | (.error error, s) => (.error error, s)

def execute (s : Session) : Request → Except SessionError Response × Session
  | .routing source target count =>
    let (result, s) := s.routing source target count
    (result.map .routes, s)
  | .distribution emitters => ((s.distribution emitters).map .distribution, s)
  | .block vertices => blockedAfter (forEach block vertices s)
  | .unblock vertices => blockedAfter (forEach unblock vertices s)
  | .unblockAll => blockedAfter s.unblockAll

end Session

end FeatureNet
