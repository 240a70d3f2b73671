import FeatureNet.Config
import FeatureNet.Network.Fingerprint
import FeatureNet.Network.Intake
import FeatureNet.Search.Alternatives
import FeatureNet.Search.Reach
import FeatureNet.Store

namespace FeatureNet

inductive SessionError
  | notPrepared
  /-- The number of alternatives asked for is zero or above the greatest allowed. -/
  | invalidCount (count greatest : Nat)
  | network (error : NetworkError)
  | persistence (error : StoreError)
deriving DecidableEq

def SessionError.message : SessionError → String
  | notPrepared => "Graph not prepared"
  | invalidCount count greatest =>
    "Invalid k: " ++ String.ofList (Decimal.naturalText count) ++ " (expected 1..=" ++
      String.ofList (Decimal.naturalText greatest) ++ ")"
  | network error => error.message
  | persistence error => "Persistence error: " ++ error.message

/-- A network, once one has been prepared, and the store that keeps its blocked vertices. -/
structure Session where
  store : Store
  config : Config
  network : Option Network

namespace Session

def start (store : Store) (config : Config) : Session := ⟨store, config, none⟩

/-- Blocks stored vertices one after another. Those that the network lacks are passed over, or are an
error if the settings are strict. -/
def restore (strict : Bool) : List FeatureId → Network → Except NetworkError Network
  | [], n => .ok n
  | id :: rest, n =>
    match n.block id with
    | .ok n => restore strict rest n
    | .error (.alreadyBlocked _) => restore strict rest n
    | .error error => if strict then .error error else restore strict rest n

/-- Prepares the network of a list of connections in place of the one before. If that fails, the one
before stays. -/
def prepare (connections : List Connection) (s : Session) : Except SessionError Report × Session :=
  let (network, report) := Network.ofConnections connections
  if s.config.restoreBlocked then
    match s.store.load with
    | .error error => (.error (.persistence error), s)
    | .ok ids =>
      match restore s.config.strict ids network with
      | .error error => (.error (.network error), s)
      | .ok network => (.ok report, { s with network := some network })
  else (.ok report, { s with network := some network })

def isPrepared (s : Session) : Bool := s.network.isSome

def prepared (s : Session) : Except SessionError Network :=
  match s.network with
  | none => .error .notPrepared
  | some n => .ok n

def fingerprint (s : Session) : Except SessionError Fingerprint := s.prepared.map (·.fingerprint)

/-- Blocks a vertex in three steps, each only if the one before went well: the request is checked against
the network, written to the store, and only then done in the network. -/
def block (id : FeatureId) (s : Session) : Except SessionError Unit × Session :=
  match s.network with
  | none => (.error .notPrepared, s)
  | some n =>
    match n.checkBlock id with
    | .error error => (.error (.network error), s)
    | .ok () =>
      match s.store.add id with
      | (.error error, store) => (.error (.persistence error), { s with store })
      | (.ok (), store) =>
        match n.block id with
        | .error error => (.error (.network error), { s with store })
        | .ok n => (.ok (), { s with store, network := some n })

def unblock (id : FeatureId) (s : Session) : Except SessionError Unit × Session :=
  match s.network with
  | none => (.error .notPrepared, s)
  | some n =>
    match n.checkUnblock id with
    | .error error => (.error (.network error), s)
    | .ok () =>
      match s.store.remove id with
      | (.error error, store) => (.error (.persistence error), { s with store })
      | (.ok (), store) =>
        match n.unblock id with
        | .error error => (.error (.network error), { s with store })
        | .ok n => (.ok (), { s with store, network := some n })

def unblockAll (s : Session) : Except SessionError Unit × Session :=
  match s.network with
  | none => (.error .notPrepared, s)
  | some n =>
    match s.store.clear with
    | (.error error, store) => (.error (.persistence error), { s with store })
    | (.ok (), store) => (.ok (), { s with store, network := some n.unblockAll })

/-- Without a network nothing is blocked. -/
def isBlocked (s : Session) (id : FeatureId) : Bool :=
  (s.network.map fun n => n.isBlocked id).getD false

def cheapestTree (root : FeatureId) (s : Session) : Except SessionError PathTree :=
  s.prepared.map fun n => n.cheapestTree root

def cheapestPath (source target : FeatureId) (s : Session) : Except SessionError Path :=
  s.prepared.map fun n => n.cheapestPath source target

/-- Up to `count` cheapest paths. The count is checked before the network is asked for. -/
def alternatives (source target : FeatureId) (count : Nat) (s : Session) :
    Except SessionError (List Path) × Session :=
  if count = 0 ∨ s.config.maxCount < count then
    (.error (.invalidCount count s.config.maxCount), s)
  else
    match s.network with
    | none => (.error .notPrepared, s)
    | some n =>
      let (paths, n) := n.alternatives source target count
      (.ok paths, { s with network := some n })

def reach (seeds : IdSet) (s : Session) : Except SessionError IdSet :=
  s.prepared.map fun n => n.reach seeds

def pathCost (p : Path) (s : Session) : Except SessionError Binary64 :=
  s.prepared.map fun n => n.pathCost p

end Session

end FeatureNet
