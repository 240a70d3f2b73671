import FeatureNet.Proofs.SessionRuns
import FeatureNet.Proofs.TemporaryFiles

namespace FeatureNet

namespace Store

variable {s t : Store} {ids : IdSet} {error : StoreError}

/-- The file of a store, if it has one. -/
def location? : Store → Option Location
  | memory _ => none
  | file s => some s.location

/-- What opening the file of a store once more would give, if it has one. -/
def reopened? : Store → Option (Except StoreError IdSet)
  | memory _ => none
  | file s => some s.reopened

/-- The disk of a store, if it has one, is a tree of folders. -/
inductive Rooted : Store → Prop
  | memory (s : MemoryStore) : Rooted (.memory s)
  | file {s : FileStore} : s.disk.Rooted → Rooted (.file s)

instance (s : Store) : Decidable s.Rooted :=
  match s with
  | .memory s => .isTrue (.memory s)
  | .file s => decidable_of_iff s.disk.Rooted ⟨.file, fun | .file rooted => rooted⟩

/-- The ids held are the same, and those that the file would be opened with. -/
structure Intact (s t : Store) : Prop where
  ids : t.ids = s.ids
  location : t.location? = s.location?
  reopened : t.reopened? = s.reopened?

theorem intact_refl (s : Store) : s.Intact s := ⟨rfl, rfl, rfl⟩

theorem Rooted.replace (rooted : s.Rooted) (ids : IdSet) : (s.replace ids).2.Rooted := by
  cases rooted with
  | memory s => exact .memory _
  | @file s rooted =>
    show Rooted (.file (s.replace ids).2)
    rcases s.replace_cases ids with ⟨error, disk, replaced, spares⟩ | ⟨disk, replaced, spares, _⟩
    · rw [replaced]
      exact .file (spares.same.rooted rooted)
    · rw [replaced]
      exact .file (spares.same.rooted rooted)

/-- A store that refuses a change is intact. -/
theorem Rooted.refused (rooted : s.Rooted) (failed : (s.replace ids).1 = .error error) :
    s.Intact (s.replace ids).2 := by
  cases rooted with
  | memory s =>
    change (s.replace ids).1 = .error error at failed
    show Intact (.memory s) (.memory (s.replace ids).2)
    unfold MemoryStore.replace at failed ⊢
    split at failed
    · next readOnly =>
      rw [if_pos readOnly]
      exact intact_refl _
    · cases failed
  | @file s rooted =>
    change (s.replace ids).1 = .error error at failed
    show Intact (.file s) (.file (s.replace ids).2)
    rcases s.replace_cases ids with ⟨_, disk, replaced, spares⟩ | ⟨disk, replaced, _⟩
    · rw [replaced]
      exact ⟨rfl, rfl, congrArg some (FileStore.openAt_of_sparesBut rooted spares)⟩
    · rw [replaced] at failed
      cases failed

end Store

namespace Session

variable {s : Session} {error : SessionError}

/-- Nothing changes that could be seen in the session, or by opening the file of its store once more. -/
structure Intact (s t : Session) : Prop where
  config : t.config = s.config
  network : t.network = s.network
  store : s.store.Intact t.store

theorem intact_refl (s : Session) : s.Intact s := ⟨rfl, rfl, s.store.intact_refl⟩

theorem attempt_failed (rooted : s.store.Rooted) {checked : Except NetworkError Unit} {ids : IdSet}
    {n : Network} (failed : (s.attempt checked ids n).1 = .error error) :
    s.Intact (s.attempt checked ids n).2 := by
  unfold attempt at failed ⊢
  cases checked with
  | error error => exact s.intact_refl
  | ok done =>
    have refused (cause : StoreError) (failed : (s.store.replace ids).1 = .error cause) :=
      rooted.refused failed
    rcases replaced : s.store.replace ids with ⟨cause | _, store⟩
    · rw [replaced] at refused
      exact ⟨rfl, rfl, refused cause rfl⟩
    · rw [replaced] at failed
      cases failed

/-- A change that has been checked and stored is done. -/
theorem attempt_stored {ids : IdSet} (stored : (s.store.replace ids).1 = .ok ()) (n : Network) :
    (s.attempt (.ok ()) ids n).1 = .ok () := by
  unfold attempt
  rcases replaced : s.store.replace ids with ⟨_ | _, store⟩
  · rw [replaced] at stored
    cases stored
  · rfl

/-- What every replacement of the stored ids keeps, every attempt keeps. -/
theorem store_attempt {P : Store → Prop} (each : ∀ store ids, P store → P (store.replace ids).2)
    (holds : P s.store) (checked : Except NetworkError Unit) (ids : IdSet) (n : Network) :
    P (s.attempt checked ids n).2.store := by
  unfold attempt
  cases checked with
  | error error => exact holds
  | ok done =>
    have kept := each s.store ids holds
    rcases replaced : s.store.replace ids with ⟨_ | _, store⟩
    · rw [replaced] at kept
      exact kept
    · rw [replaced] at kept
      exact kept

/-- Two sessions that attempt the same change. -/
structure Alike (s t : Session) : Prop where
  network : t.network = s.network
  ids : t.store.ids = s.store.ids

theorem alike_refl (s : Session) : s.Alike s := ⟨rfl, rfl⟩

/-- An act is refused for want of a network, or it attempts a change, and does so on all sessions alike. -/
def Attempts (s : Session) (act : Session → Except SessionError Unit × Session) : Prop :=
  (∀ t, s.Alike t → act t = (.error .notPrepared, t)) ∨
    ∃ checked ids n, ∀ t, s.Alike t → act t = t.attempt checked ids n

theorem attempts_block (s : Session) (id : FeatureId) : s.Attempts (block id) := by
  cases prepared : s.network with
  | none => exact .inl fun t alike => by rw [block, alike.network, prepared]
  | some n => exact .inr ⟨_, _, _, fun t alike => alike.ids ▸ block_eq (alike.network.trans prepared) id⟩

theorem attempts_unblock (s : Session) (id : FeatureId) : s.Attempts (unblock id) := by
  cases prepared : s.network with
  | none => exact .inl fun t alike => by rw [unblock, alike.network, prepared]
  | some n => exact .inr ⟨_, _, _, fun t alike => alike.ids ▸ unblock_eq (alike.network.trans prepared) id⟩

theorem attempts_unblockAll (s : Session) : s.Attempts unblockAll := by
  cases prepared : s.network with
  | none => exact .inl fun t alike => by rw [unblockAll, alike.network, prepared]
  | some n => exact .inr ⟨_, _, _, fun t alike => unblockAll_eq (alike.network.trans prepared)⟩

namespace Attempts

variable {act : Session → Except SessionError Unit × Session}

theorem failed (attempts : s.Attempts act) (rooted : s.store.Rooted) (failed : (act s).1 = .error error) :
    s.Intact (act s).2 := by
  rcases attempts with refused | ⟨checked, ids, n, attempted⟩
  · rw [refused s s.alike_refl]
    exact s.intact_refl
  · rw [attempted s s.alike_refl] at failed ⊢
    exact attempt_failed rooted failed

theorem store {P : Store → Prop} (attempts : s.Attempts act)
    (each : ∀ store ids, P store → P (store.replace ids).2) (holds : P s.store) : P (act s).2.store := by
  rcases attempts with refused | ⟨checked, ids, n, attempted⟩
  · rw [refused s s.alike_refl]
    exact holds
  · rw [attempted s s.alike_refl]
    exact store_attempt each holds checked ids n

end Attempts

/-- What every replacement of the stored ids keeps, every call keeps. -/
theorem store_after {P : Store → Prop} (each : ∀ store ids, P store → P (store.replace ids).2)
    (holds : P s.store) (c : Call) : P (s.after c).store := by
  cases c with
  | prepare connections =>
    show P (s.prepare connections).2.store
    rcases s.prepare_cases connections with ⟨_, _, same⟩ | ⟨_, n, same, _⟩
    · rwa [same]
    · rwa [same]
  | block id => exact (s.attempts_block id).store each holds
  | unblock id => exact (s.attempts_unblock id).store each holds
  | unblockAll => exact s.attempts_unblockAll.store each holds
  | alternatives source target count => rwa [after_alternatives]
  | routing source target count => rwa [after_routing]
  | execute request =>
    exact execute_keeps (P := fun t => P t.store) (fun t id holds => (t.attempts_block id).store each holds)
      (fun t id holds => (t.attempts_unblock id).store each holds)
      (fun t holds => t.attempts_unblockAll.store each holds) holds request

/-- Answering with the blocked vertices fails only if the change did. -/
theorem unblockAll_of_execute (failed : (s.execute .unblockAll).1 = .error error) :
    s.unblockAll.1 = .error error := by
  change (blockedAfter s.unblockAll).1 = .error error at failed
  rcases s.unblockAll_cases with ⟨cause, result, _⟩ | ⟨result, n, _, _, prepared, _⟩
  · rw [result]
    generalize s.unblockAll = outcome at result failed
    obtain ⟨_, t⟩ := outcome
    cases result
    rw [Except.error.inj failed]
  · generalize s.unblockAll = outcome at result failed prepared
    obtain ⟨_, t⟩ := outcome
    cases result
    dsimp only at prepared
    simp [blockedAfter, Session.prepared, prepared, Except.map] at failed

def errorOf? {α : Type} : Except SessionError α → Option SessionError
  | .error error => some error
  | .ok _ => none

theorem eq_error_of_errorOf? {α : Type} {result : Except SessionError α}
    (failed : errorOf? result = some error) : result = .error error := by
  cases result with
  | error cause => rw [Option.some.inj failed]
  | ok a => cases failed

/-- What a call fails with, if it fails. -/
def failure? (s : Session) : Call → Option SessionError
  | .prepare connections => errorOf? (s.prepare connections).1
  | .block id => errorOf? (s.block id).1
  | .unblock id => errorOf? (s.unblock id).1
  | .unblockAll => errorOf? s.unblockAll.1
  | .alternatives source target count => errorOf? (s.alternatives source target count).1
  | .routing source target count => errorOf? (s.routing source target count).1
  | .execute request => errorOf? (s.execute request).1

/-- Whether a call does one thing, and not one thing for each of a list of vertices. -/
def Call.isWhole : Call → Bool
  | .execute (.block _) | .execute (.unblock _) => false
  | _ => true

/-- A call that fails leaves no trace, whatever it fails at: the network is as it was, and so are the ids
that the store holds and those that its file would be opened with. All calls leave the disk a tree of
folders. And a change that has been stored is done: after the check and the store nothing can fail. -/
theorem failed_call_intact (rooted : s.store.Rooted) :
    (∀ (c : Call) (error : SessionError), c.isWhole = true → s.failure? c = some error →
        s.Intact (s.after c)) ∧
      (∀ c : Call, (s.after c).store.Rooted) ∧
      ∀ n id, s.network = some n →
        (n.checkBlock id = .ok () → (s.store.add id).1 = .ok () →
          n.block id = .ok (n.setBlocked id true) ∧ (s.block id).1 = .ok ()) ∧
        (n.checkUnblock id = .ok () → (s.store.remove id).1 = .ok () →
          n.unblock id = .ok (n.setBlocked id false) ∧ (s.unblock id).1 = .ok ()) := by
  refine ⟨fun c error whole failed => ?_, store_after (fun _ ids rooted => rooted.replace ids) rooted, ?_⟩
  · cases c with
    | prepare connections =>
      have result := eq_error_of_errorOf? failed
      show s.Intact (s.prepare connections).2
      rcases s.prepare_cases connections with ⟨_, _, same⟩ | ⟨done, _⟩
      · rw [same]
        exact s.intact_refl
      · rw [done] at result
        cases result
    | block id => exact (s.attempts_block id).failed rooted (eq_error_of_errorOf? failed)
    | unblock id => exact (s.attempts_unblock id).failed rooted (eq_error_of_errorOf? failed)
    | unblockAll => exact s.attempts_unblockAll.failed rooted (eq_error_of_errorOf? failed)
    | alternatives source target count =>
      rw [after_alternatives]
      exact s.intact_refl
    | routing source target count =>
      rw [after_routing]
      exact s.intact_refl
    | execute request =>
      cases request with
      | routing source target count =>
        rw [after_execute_routing]
        exact s.intact_refl
      | distribution emitters => exact s.intact_refl
      | block vertices => cases whole
      | unblock vertices => cases whole
      | unblockAll =>
        rw [after_execute_unblockAll]
        have result := unblockAll_of_execute (eq_error_of_errorOf? failed)
        exact s.attempts_unblockAll.failed rooted result
  · intro n id prepared
    refine ⟨fun checked stored => ⟨by rw [Network.block, checked]; rfl, ?_⟩,
      fun checked stored => ⟨by rw [Network.unblock, checked]; rfl, ?_⟩⟩
    · rw [block_eq prepared, checked]
      exact attempt_stored (Store.add_eq .. ▸ stored) _
    · rw [unblock_eq prepared, checked]
      exact attempt_stored (Store.remove_eq .. ▸ stored) _

/-- A file of blocked vertices in the folder where the program runs, on a disk that lets the temporary file
be written and then refuses to move it. -/
def jammed : FileStore where
  location := .ofText "blocked.json"
  ids := .ofList [3]
  disk := { Disk.empty.put ["blocked.json".toList] "[3]" with mishaps := [.nothing, .refused .accessDenied] }

/-- A session with that store and a network of three vertices, the last one blocked. -/
def refusing : Session :=
  (start (.file jammed) .standard).after
    (.prepare [.bidirectional 1 2 12 (.ofInt 1), .bidirectional 2 3 23 (.ofInt 1)])

/-- Blocking a vertex leaves a temporary file behind, and all else as it was. -/
theorem failed_call_intact_refusing :
    refusing.store.Rooted ∧
      refusing.failure? (.block 2) =
        some (.persistence (.io .accessDenied "blocked.json")) ∧
      refusing.Intact (refusing.after (.block 2)) ∧
      (refusing.after (.block 2)).store.reopened? = some (.ok (.ofList [3])) ∧
      (match (refusing.after (.block 2)).store with
        | .memory _ => none
        | .file s => s.disk.text? ["blocked.json.tmp".toList]) = some "[\n  2,\n  3\n]" := by
  have rooted : refusing.store.Rooted := by decide +kernel
  have failed : refusing.failure? (.block 2) = some (.persistence (.io .accessDenied "blocked.json")) := by
    decide +kernel
  have intact := (failed_call_intact (s := refusing) rooted).1 (.block 2) _ rfl failed
  exact ⟨rooted, failed, intact, by decide +kernel, by decide +kernel⟩

end Session

end FeatureNet
