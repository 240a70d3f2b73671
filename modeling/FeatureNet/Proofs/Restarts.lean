import FeatureNet.CommandLine
import FeatureNet.Proofs.BlockedOverlay
import FeatureNet.Proofs.CalmDisks

namespace FeatureNet

namespace Session

/-- A session works off requests: the answer to each, and the session after it. -/
def answers : Session → List Request → List (Except SessionError Response × Session)
  | _, [] => []
  | s, request :: rest => s.execute request :: answers (s.execute request).2 rest

theorem answers_sound {s : Session} (calm : s.store.Calm) (requests : List Request) :
    ∀ answered ∈ s.answers requests, storeFailed answered.1 = false := by
  induction requests generalizing s with
  | nil => simp [answers]
  | cons request rest ih =>
    obtain ⟨sound, later⟩ := execute_sound calm request
    intro answered member
    rcases List.mem_cons.mp member with rfl | next
    · exact sound
    · exact ih later answered next

theorem prepare_sound {s : Session} (calm : s.store.Calm) (connections : List Connection) :
    storeFailed (s.prepare connections).1 = false ∧ (s.prepare connections).2.store = s.store := by
  constructor
  · unfold prepare
    cases restores : s.config.restoreBlocked with
    | false => simp [storeFailed, errorOf?]
    | true =>
      simp only [if_true, calm.load]
      cases restore s.config.strict s.store.ids.toList (Network.ofConnections connections).1 <;> rfl
  · rcases s.prepare_cases connections with ⟨_, _, same⟩ | ⟨_, _, same, _⟩ <;> rw [same]

end Session

/-- Requests that ask, and do not block or unblock. -/
inductive Request.Asks : Request → Prop
  | routing (source target : FeatureId) (count : Nat) : Asks (.routing source target count)
  | distribution (emitters : IdSet) : Asks (.distribution emitters)

theorem Request.Asks.execute {request : Request} (asks : request.Asks) (s : Session) :
    (s.execute request).2 = s := by
  cases asks with
  | routing => exact s.routing_unmoved ..
  | distribution => rfl

namespace CommandLine

open Session

variable {inputs : Inputs} {l : Location} {config : Config} {connections : List Connection}
  {disk found : Disk} {request : Request} {store : Store} {s : Session}

/-- What a run finds on the disk: the settings, the network and a request. -/
structure Finds (inputs : Inputs) (disk : Disk) (config : Config) (connections : List Connection)
    (request : Request) : Prop where
  config : readConfig disk inputs.config = .ok config
  network : readValue "NETWORK_PATH" (Json.Doc.list? Connection.decode?) disk inputs.network = .ok connections
  request : readValue "REQUEST_PATH" Request.decode? disk inputs.request = .ok request

/-- What a run prints for a session's answer, or why it fails. -/
def printed (result : Except SessionError Response) : Except Failure String :=
  (result.mapError .session).map fun response => response.encode.prettyText ++ "\n"

theorem run_eq (finds : Finds inputs disk config connections request)
    (opened : openStore disk inputs.blocked = .ok store) :
    run inputs disk = (printed (answer store config connections request).1,
      diskAfter disk (answer store config connections request).2.store) := by
  unfold run
  rw [finds.config, finds.network, finds.request, opened]
  rfl

/-- One run of the program: the disk it finds, the request on it, what it prints or fails with, and the disk
it leaves. -/
structure Run where
  found : Disk
  request : Request
  output : Except Failure String
  left : Disk

/-- Runs one after another from a disk, one for each of a list of requests. They find the same settings and
the same network; anything may happen to the disk between them, except to the file of blocked vertices. -/
inductive Restarts (inputs : Inputs) (l : Location) (config : Config) (connections : List Connection) :
    Disk → List Request → List Run → Prop
  | done (disk : Disk) : Restarts inputs l config connections disk [] []
  | again {disk found : Disk} {request : Request} {requests : List Request} {runs : List Run} :
      found.read l = disk.read l → Finds inputs found config connections request →
      Restarts inputs l config connections (run inputs found).2 requests runs →
      Restarts inputs l config connections disk (request :: requests)
        (⟨found, request, (run inputs found).1, (run inputs found).2⟩ :: runs)

/-- Whether it is the store that has failed. -/
def Run.storeFailed (r : Run) : Bool :=
  match r.output with
  | .error (.session (.persistence _)) => true
  | _ => false

/-- A run that has the outcome of a session's call. -/
structure Repeats (l : Location) (r : Run) (answered : Except SessionError Response × Session) :
    Prop where
  output : r.output = printed answered.1
  ids : (FileStore.openAt r.left l).map (·.ids) = .ok answered.2.store.ids
  reopened : answered.2.store.reopened? = some (.ok answered.2.store.ids)

/-- A session that a run could have opened and prepared: a file read anew gives the ids of the session,
and a network prepared anew is the one of the session. -/
structure Standing (l : Location) (config : Config) (connections : List Connection) (s : Session) :
    Prop where
  config : s.config = config
  overlaid : s.Overlaid (Network.ofConnections connections).1
  filed : s.Filed l

/-- What opening and preparing give depends on the ids in the file alone. -/
theorem start_standing {fs : FileStore} (restores : config.restoreBlocked = true)
    (opened : FileStore.openAt disk l = .ok fs)
    (known : config.strict = true →
      ∀ id ∈ fs.ids, (Network.ofConnections connections).1.containsVertex id = true) :
    ∃ t, (start (.file fs) config).prepare connections = (.ok (Network.ofConnections connections).2, t) ∧
      t.store = .file fs ∧ Standing l config connections t := by
  have prepared : (start (.file fs) config).prepare connections = _ := prepare_eq restores rfl known
  obtain ⟨location, _, reopened⟩ := FileStore.openAt_ok opened
  exact ⟨_, prepared, rfl, rfl, ⟨rfl, known⟩, ⟨congrArg some location, congrArg some reopened⟩⟩

/-- Sessions prepared alike from the same ids differ in nothing but the disk. -/
theorem Standing.inMemory_eq {t : Session} (standing : Standing l config connections s)
    (standing' : Standing l config connections t) (same : t.store.ids = s.store.ids) :
    t.inMemory = s.inMemory := by
  unfold inMemory
  rw [standing.config, standing'.config, standing.overlaid.network, standing'.overlaid.network, same]

theorem Standing.execute (standing : Standing l config connections s)
    (sound : Session.storeFailed (s.execute request).1 = false) :
    Standing l config connections (s.execute request).2 where
  config := (s.config_execute request).trans standing.config
  overlaid := standing.overlaid.execute request
  filed := (standing.filed.execute sound).filed

theorem storeFailed_printed (found : Disk) (request : Request) (result : Except SessionError Response)
    (left : Disk) :
    Run.storeFailed ⟨found, request, printed result, left⟩ = Session.storeFailed result := by
  cases result with
  | ok response => rfl
  | error error => cases error <;> rfl

/-- The disk of a session with a file. -/
theorem openAt_diskAfter (filed : s.Filed l) (disk : Disk) :
    (FileStore.openAt (diskAfter disk s.store) l).map (·.ids) = .ok s.store.ids := by
  obtain ⟨location, reopened⟩ := filed
  cases shape : s.store with
  | memory store =>
    rw [shape] at location
    cases location
  | file store =>
    rw [shape] at location reopened
    have place : store.location = l := Option.some.inj location
    subst place
    exact Option.some.inj reopened

/-- One run beside one request to the session. -/
theorem Standing.repeats (standing : Standing l config connections s) (restores : config.restoreBlocked = true)
    (blocked : inputs.blocked = some l)
    (kept : (FileStore.openAt found l).map (·.ids) = .ok s.store.ids)
    (finds : Finds inputs found config connections request)
    (sound : Session.storeFailed (s.execute request).1 = false)
    (runSound : Run.storeFailed ⟨found, request, (run inputs found).1, (run inputs found).2⟩ = false) :
    Repeats l ⟨found, request, (run inputs found).1, (run inputs found).2⟩ (s.execute request) := by
  obtain ⟨fs, opened, held⟩ : ∃ fs, FileStore.openAt found l = .ok fs ∧ fs.ids = s.store.ids := by
    cases opened : FileStore.openAt found l with
    | error error =>
      rw [opened] at kept
      cases kept
    | ok fs =>
      rw [opened] at kept
      exact ⟨fs, rfl, Except.ok.inj kept⟩
  have known := standing.overlaid.known
  rw [standing.config, ← held] at known
  obtain ⟨t, prepared, stored, standing'⟩ := start_standing restores opened known
  have sameMemory := standing.inMemory_eq standing' (by rw [stored]; exact held)
  have openedStore : openStore found inputs.blocked = .ok (.file fs) := by
    rw [blocked, openStore, opened]
    rfl
  have answered : answer (.file fs) config connections request = t.execute request := by
    unfold answer
    rw [prepared]
  rw [run_eq finds openedStore, answered] at runSound ⊢
  rw [storeFailed_printed] at runSound
  have follows := standing.filed.execute sound
  have follows' := standing'.filed.execute runSound
  rw [sameMemory] at follows'
  have sameIds : (t.execute request).2.store.ids = (s.execute request).2.store.ids :=
    congrArg (·.store.ids) (follows'.session.trans follows.session.symm)
  refine ⟨congrArg printed (follows'.result.trans follows.result.symm), ?_, follows.filed.reopened⟩
  rw [← sameIds]
  exact openAt_diskAfter follows'.filed found

theorem diskAfter_of_openStore {place : Option Location} (opened : openStore disk place = .ok store) :
    diskAfter disk store = disk := by
  cases place with
  | none =>
    cases opened
    rfl
  | some l =>
    simp only [openStore] at opened
    cases openedFile : FileStore.openAt disk l with
    | error error =>
      rw [openedFile] at opened
      cases opened
    | ok fs =>
      rw [openedFile] at opened
      cases opened
      exact (FileStore.openAt_ok openedFile).2.1

/-- A run with a request that asks leaves the whole disk as it finds it, whatever else it finds there. -/
theorem run_asks (asked : readValue "REQUEST_PATH" Request.decode? disk inputs.request = .ok request)
    (asks : request.Asks) : (run inputs disk).2 = disk := by
  have kept (store : Store) (config : Config) (connections : List Connection) :
      (answer store config connections request).2.store = store := by
    unfold answer
    rcases (start store config).prepare_cases connections with ⟨error, failed, same⟩ | ⟨done, n, same, _⟩
    · rw [← Prod.mk.eta (p := (start store config).prepare connections), failed, same]
      rfl
    · rw [← Prod.mk.eta (p := (start store config).prepare connections), done, same]
      exact congrArg (·.store) (asks.execute _)
  unfold run
  rw [asked]
  cases readConfig disk inputs.config with
  | error failure => rfl
  | ok config =>
    cases readValue "NETWORK_PATH" (Json.Doc.list? Connection.decode?) disk inputs.network with
    | error failure => rfl
    | ok connections =>
      cases opened : openStore disk inputs.blocked with
      | error failure => rfl
      | ok store =>
        show diskAfter disk (answer store config connections request).2.store = disk
        rw [kept]
        exact diskAfter_of_openStore opened

/-- A whole list of runs beside the same list of requests to the session. -/
theorem Standing.restarts {requests : List Request} {runs : List Run}
    (standing : Standing l config connections s) (restores : config.restoreBlocked = true)
    (blocked : inputs.blocked = some l) (kept : (FileStore.openAt disk l).map (·.ids) = .ok s.store.ids)
    (restarts : Restarts inputs l config connections disk requests runs)
    (sound : ∀ answered ∈ s.answers requests, Session.storeFailed answered.1 = false)
    (runsSound : ∀ r ∈ runs, r.storeFailed = false) :
    List.Forall₂ (Repeats l) runs (s.answers requests) := by
  induction restarts generalizing s with
  | done disk => exact .nil
  | @again disk found request requests runs same finds _ ih =>
    have kept' : (FileStore.openAt found l).map (·.ids) = .ok s.store.ids := by
      rw [FileStore.openAt_congr (d := disk) (fun text => by rw [same]) (by rw [same])]
      exact kept
    have soundNow := sound _ (List.mem_cons_self ..)
    have repeats := standing.repeats restores blocked kept' finds soundNow
      (runsSound _ (List.mem_cons_self ..))
    exact .cons repeats (ih (standing.execute soundNow) repeats.ids
      (fun answered member => sound answered (List.mem_cons_of_mem _ member))
      fun r member => runsSound r (List.mem_cons_of_mem _ member))

/-- On a calm disk no run fails because of the store. -/
theorem run_sound (blocked : inputs.blocked = some l) (finds : Finds inputs found config connections request)
    (calm : found.Calm l) :
    Run.storeFailed ⟨found, request, (run inputs found).1, (run inputs found).2⟩ = false := by
  cases opened : FileStore.openAt found l with
  | error error =>
    have failed : run inputs found = (.error (.store error), found) := by
      unfold run
      rw [finds.config, finds.network, finds.request, blocked, openStore, opened]
      rfl
    rw [failed]
    rfl
  | ok fs =>
    have openedStore : openStore found inputs.blocked = .ok (.file fs) := by
      rw [blocked, openStore, opened]
      rfl
    rw [run_eq finds openedStore, storeFailed_printed]
    obtain ⟨place, same, _⟩ := FileStore.openAt_ok opened
    have calm' : (start (.file fs) config).store.Calm := by
      rw [← place, ← same] at calm
      exact .file calm
    obtain ⟨sound, kept⟩ := prepare_sound calm' connections
    rw [← kept] at calm'
    unfold answer
    rcases prepared : (start (.file fs) config).prepare connections with ⟨error | report, t⟩
    · rw [prepared] at sound
      exact sound
    · rw [prepared] at calm'
      exact (execute_sound calm' request).1

theorem Restarts.sound {requests : List Request} {runs : List Run} (blocked : inputs.blocked = some l)
    (restarts : Restarts inputs l config connections disk requests runs) :
    ∀ r ∈ runs, r.found.Calm l → r.storeFailed = false := by
  induction restarts with
  | done disk => simp
  | again same finds later ih =>
    intro r member calm
    rcases List.mem_cons.mp member with rfl | next
    · exact run_sound blocked finds calm
    · exact ih r next calm

/-- Runs of the program, one for each request, have the outcomes of the requests in one session that is
opened on the same file and prepared once, if the store fails in neither: each prints the session's answer
or fails as the session does, and leaves a file that opens to the ids of the session, which are those of the
session's own file. On calm disks the store fails in neither. And requests that ask write nothing, neither
in a run nor in a session. -/
theorem restarts_invisible {fs : FileStore} {report : Report} {requests : List Request} {runs : List Run}
    (restores : config.restoreBlocked = true) (blocked : inputs.blocked = some l)
    (opened : FileStore.openAt disk l = .ok fs)
    (prepared : (start (.file fs) config).prepare connections = (.ok report, s))
    (restarts : Restarts inputs l config connections disk requests runs) :
    ((∀ answered ∈ s.answers requests, Session.storeFailed answered.1 = false) →
        (∀ r ∈ runs, r.storeFailed = false) → List.Forall₂ (Repeats l) runs (s.answers requests)) ∧
      (disk.Calm l → ∀ answered ∈ s.answers requests, Session.storeFailed answered.1 = false) ∧
      (∀ r ∈ runs, r.found.Calm l → r.storeFailed = false) ∧
      (∀ disk request, readValue "REQUEST_PATH" Request.decode? disk inputs.request = .ok request →
        request.Asks → (run inputs disk).2 = disk) ∧
      ∀ (t : Session) (request : Request), request.Asks → (t.execute request).2 = t := by
  have known := known_of_prepare (s := start (.file fs) config) restores (congrArg Prod.fst prepared)
  obtain ⟨t, prepared', stored, standing⟩ := start_standing restores opened known
  obtain rfl : s = t := congrArg Prod.snd (prepared.symm.trans prepared')
  have kept : (FileStore.openAt disk l).map (·.ids) = .ok s.store.ids := by
    rw [opened, stored]
    rfl
  refine ⟨fun sound runsSound => standing.restarts restores blocked kept restarts sound runsSound,
    fun calm => ?_, restarts.sound blocked, fun _ _ asked asks => run_asks asked asks,
    fun t _ asks => asks.execute t⟩
  obtain ⟨place, same, _⟩ := FileStore.openAt_ok opened
  refine answers_sound ?_ requests
  rw [stored]
  rw [← place, ← same] at calm
  exact .file calm

/-- Where the program finds its files, with the standard settings. -/
def byName : Inputs :=
  ⟨none, some (.ofText "network.json"), some (.ofText "request.json"), some (.ofText "blocked.json")⟩

/-- The disk with another request. -/
def asking (disk : Disk) (text : String) : Disk := disk.put ["request.json".toList] text

/-- One more run, for which nothing but the request is written. -/
theorem Restarts.next (text : String) {requests : List Request} {runs : List Run}
    (kept : (asking disk text).read l = disk.read l)
    (finds : Finds inputs (asking disk text) config connections request)
    (later : Restarts inputs l config connections (run inputs (asking disk text)).2 requests runs) :
    Restarts inputs l config connections disk (request :: requests)
      (⟨asking disk text, request, (run inputs (asking disk text)).1, (run inputs (asking disk text)).2⟩ ::
        runs) := .again kept finds later

/-- A disk with a network of two vertices, and a file of two ids, one of them twice and one of some other
network. -/
def supplied : Disk :=
  (Disk.empty.put ["network.json".toList] "[[1, 2, 12, \"bidirectional\", 1]]").put
    ["blocked.json".toList] "[9, 2, 2]"

def supplies : List Connection := [⟨1, 2, 12, .bidirectional, .ofInt 1, .zero⟩]

/-- The store that is opened on that disk. -/
def supplyStore : FileStore := ⟨.ofText "blocked.json", .ofList [2, 9], supplied⟩

/-- The session with that store, prepared once. -/
def supplying : Session := ((start (.file supplyStore) .standard).prepare supplies).2

/-- A list is worked off up to an unknown vertex; what was blocked stays blocked after a restart, and
unblocking every vertex also takes the id of the other network out of the file. -/
theorem restarts_invisible_supplied :
    ∃ runs,
      Restarts byName (.ofText "blocked.json") .standard supplies supplied [.block [1, 99], .unblockAll] runs ∧
      List.Forall₂ (Repeats (.ofText "blocked.json")) runs
        (supplying.answers [.block [1, 99], .unblockAll]) ∧
      runs.map (fun r => r.left.read (.ofText "blocked.json")) =
        [.ok "[\n  1,\n  2,\n  9\n]", .ok "[]"] := by
  have restarts : Restarts byName (.ofText "blocked.json") .standard supplies supplied
      [.block [1, 99], .unblockAll] _ :=
    .next "[\"block\", [1, 99]]" (by decide +kernel) ⟨rfl, by decide +kernel, by decide +kernel⟩
      (.next "[\"unblock_all\"]" (by decide +kernel) ⟨rfl, by decide +kernel, by decide +kernel⟩ (.done _))
  have opened : FileStore.openAt supplied (.ofText "blocked.json") = .ok supplyStore := by decide +kernel
  have prepared : (start (.file supplyStore) .standard).prepare supplies =
      (.ok (Network.ofConnections supplies).2, supplying) :=
    Prod.ext (by decide +kernel) (by rw [supplying])
  obtain ⟨repeats, _⟩ := restarts_invisible rfl rfl opened prepared restarts
  exact ⟨_, restarts, repeats (by decide +kernel) (by decide +kernel), by decide +kernel⟩

end CommandLine

end FeatureNet
