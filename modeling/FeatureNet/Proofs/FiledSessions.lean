import FeatureNet.Proofs.FailedCalls
import FeatureNet.Proofs.WholeChanges

namespace FeatureNet

namespace Session

variable {s : Session} {l : Location}

/-- The store is in a file, which would be opened with the ids held. -/
structure Filed (l : Location) (s : Session) : Prop where
  location : s.store.location? = some l
  reopened : s.store.reopened? = some (.ok s.store.ids)

/-- The session with its ids in memory, where nothing fails. -/
def inMemory (s : Session) : Session := { s with store := .memory ⟨s.store.ids, false, false⟩ }

/-- Whether it is the store that has failed. -/
def storeFailed {α : Type} (result : Except SessionError α) : Bool :=
  match errorOf? result with
  | some (.persistence _) => true
  | _ => false

/-- The outcome of an act on a session with a file is that of the act in memory. -/
structure Follows {α : Type} (l : Location) (outcome remembered : Except SessionError α × Session) :
    Prop where
  result : outcome.1 = remembered.1
  session : outcome.2.inMemory = remembered.2
  filed : outcome.2.Filed l

namespace Follows

variable {α β : Type}

/-- An act that leaves the session alone. -/
theorem still (filed : s.Filed l) (result : Except SessionError α) :
    Follows l (result, s) (result, s.inMemory) := ⟨rfl, rfl, filed⟩

theorem blockedAfter {outcome remembered : Except SessionError Unit × Session}
    (follows : Follows l outcome remembered) :
    Follows l (blockedAfter outcome) (Session.blockedAfter remembered) := by
  obtain ⟨result, t⟩ := outcome
  obtain ⟨_, _⟩ := remembered
  obtain ⟨rfl, rfl, filed⟩ := follows
  cases result with
  | ok done => exact ⟨rfl, rfl, filed⟩
  | error error => exact ⟨rfl, rfl, filed⟩

end Follows

theorem storeFailed_of_blockedAfter {outcome : Except SessionError Unit × Session}
    (sound : storeFailed (blockedAfter outcome).1 = false) : storeFailed outcome.1 = false := by
  obtain ⟨_ | _, _⟩ := outcome
  · exact sound
  · rfl

namespace Filed

theorem attempt (filed : s.Filed l) {checked : Except NetworkError Unit} {ids : IdSet} {n : Network}
    (sound : storeFailed (s.attempt checked ids n).1 = false) :
    Follows l (s.attempt checked ids n) (s.inMemory.attempt checked ids n) := by
  cases checked with
  | error error => exact .still filed _
  | ok done =>
    obtain ⟨location, _⟩ := filed
    unfold Session.attempt at sound ⊢
    cases shape : s.store with
    | memory store =>
      rw [shape] at location
      cases location
    | file store =>
      rw [shape] at location sound
      have stored (done : (store.replace ids).1 = .ok ()) := FileStore.reopened_replace done
      have held := store.ids_replace ids
      simp only [Store.replace] at sound ⊢
      rcases replaced : store.replace ids with ⟨_ | _, store'⟩
      · rw [replaced] at sound
        cases sound
      · rw [replaced] at stored held
        obtain ⟨same, reopened⟩ := stored rfl
        have held' : store'.ids = ids := held
        refine ⟨rfl, ?_, ?_, ?_⟩
        · simp [inMemory, Store.ids, held', MemoryStore.replace]
        · rw [← location]
          exact congrArg some same
        · show some store'.reopened = some (.ok store'.ids)
          rw [reopened, held']

/-- One change, if it is the same with a file as in memory. -/
theorem change {act : Session → Except SessionError Unit × Session} (filed : s.Filed l)
    (attempts : s.Attempts act) (sound : storeFailed (act s).1 = false) :
    Follows l (act s) (act s.inMemory) := by
  have alike : s.Alike s.inMemory := ⟨rfl, rfl⟩
  rcases attempts with refused | ⟨checked, ids, n, attempted⟩
  · rw [refused s s.alike_refl, refused _ alike]
    exact .still filed _
  · rw [attempted s s.alike_refl] at sound ⊢
    rw [attempted _ alike]
    exact filed.attempt sound

theorem forEach {act : FeatureId → Session → Except SessionError Unit × Session}
    (attempts : ∀ (s : Session) (id : FeatureId), s.Attempts (act id)) (filed : s.Filed l)
    (vertices : List FeatureId) (sound : storeFailed (forEach act vertices s).1 = false) :
    Follows l (forEach act vertices s) (Session.forEach act vertices s.inMemory) := by
  induction vertices generalizing s with
  | nil => exact .still filed _
  | cons v rest ih =>
    have once := filed.change (attempts s v)
    unfold Session.forEach at sound ⊢
    generalize act v s = outcome at once sound
    generalize act v s.inMemory = remembered at once
    obtain ⟨result, t⟩ := outcome
    obtain ⟨_, _⟩ := remembered
    cases result with
    | ok done =>
      obtain ⟨rfl, rfl, filed'⟩ := once rfl
      exact ih filed' sound
    | error error =>
      obtain ⟨rfl, rfl, filed'⟩ := once sound
      exact .still filed' _

/-- A request has the same outcome with a file as in memory, if the store does not fail. -/
theorem execute (filed : s.Filed l) {request : Request} (sound : storeFailed (s.execute request).1 = false) :
    Follows l (s.execute request) (s.inMemory.execute request) := by
  cases request with
  | routing source target count =>
    have result := routing_congr (s := s) (t := s.inMemory) rfl rfl source target count
    refine ⟨congrArg (Except.map Response.routes) result.symm, ?_, ?_⟩
    · show (s.routing source target count).2.inMemory = (s.inMemory.routing source target count).2
      rw [routing_unmoved, routing_unmoved]
    · show (s.routing source target count).2.Filed l
      rwa [routing_unmoved]
  | distribution emitters => exact .still filed _
  | block vertices =>
    exact (filed.forEach attempts_block vertices (storeFailed_of_blockedAfter sound)).blockedAfter
  | unblock vertices =>
    exact (filed.forEach attempts_unblock vertices (storeFailed_of_blockedAfter sound)).blockedAfter
  | unblockAll =>
    exact (filed.change s.attempts_unblockAll (storeFailed_of_blockedAfter sound)).blockedAfter

end Filed

end Session

end FeatureNet
