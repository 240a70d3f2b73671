import FeatureNet.Exchange.Connection
import FeatureNet.Exchange.Request

namespace FeatureNet

namespace CommandLine

/-- Where the inputs are; without a file of settings or of blocked vertices there are the standard settings
and a store in memory. -/
structure Inputs where
  config : Option Location
  network : Option Location
  request : Option Location
  blocked : Option Location

inductive Failure
  | config (error : ConfigError)
  /-- A variable that names an input is not set. -/
  | unset (name : String)
  | unreadable (cause : Cause)
  | malformed
  | store (error : StoreError)
  | session (error : SessionError)
deriving DecidableEq

def Failure.message : Failure → String
  | config error => error.message
  | unset name => name ++ " must be set"
  | unreadable cause => cause.message
  | malformed => "Malformed input"
  | store error => error.message
  | session error => error.message

def readConfig (disk : Disk) : Option Location → Except Failure Config
  | none => .ok .standard
  | some l => (Config.readAt disk l).mapError .config

/-- Reads the file that a variable names and that holds a value of some type. -/
def readValue {α : Type} (name : String) (decode? : Json.Doc → Option α) (disk : Disk) :
    Option Location → Except Failure α
  | none => .error (.unset name)
  | some l =>
    match disk.read l with
    | .error cause => .error (.unreadable cause)
    | .ok text =>
      match (Json.Doc.read? text).bind decode? with
      | none => .error .malformed
      | some a => .ok a

def openStore (disk : Disk) : Option Location → Except Failure Store
  | none => .ok (.memory (.ofList []))
  | some l => (FileStore.openAt disk l).map .file |>.mapError .store

/-- The disk after what a store has done to it. -/
def diskAfter (disk : Disk) : Store → Disk
  | .memory _ => disk
  | .file s => s.disk

/-- Prepares a session and carries out one request. -/
def answer (store : Store) (config : Config) (connections : List Connection) (request : Request) :
    Except SessionError Response × Session :=
  match (Session.start store config).prepare connections with
  | (.error error, s) => (.error error, s)
  | (.ok _, s) => s.execute request

/-- The text to print, or why there is none, and the disk afterwards. A run that fails prints nothing, but
what it has written to the file of blocked vertices by then stays there. -/
def run (inputs : Inputs) (disk : Disk) : Except Failure String × Disk :=
  let prepared := do
    let config ← readConfig disk inputs.config
    let connections ←
      readValue "NETWORK_PATH" (Json.Doc.list? Connection.decode?) disk inputs.network
    let request ← readValue "REQUEST_PATH" Request.decode? disk inputs.request
    let store ← openStore disk inputs.blocked
    return (config, connections, request, store)
  match prepared with
  | .error failure => (.error failure, disk)
  | .ok (config, connections, request, store) =>
    let (result, s) := answer store config connections request
    ((result.mapError .session).map fun response => response.encode.prettyText ++ "\n",
      diskAfter disk s.store)

end CommandLine

end FeatureNet
