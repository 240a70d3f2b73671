import FeatureNet.Proofs.BlockedVertices
import FeatureNet.Session.Request

namespace FeatureNet

/-- A change that fails leaves the stored ids as they were. -/
theorem MemoryStore.ids_replace (s : MemoryStore) (ids : IdSet) :
    (s.replace ids).2.ids = bif (s.replace ids).1.isOk then ids else s.ids := by
  unfold replace
  split <;> rfl

theorem FileStore.ids_replace (s : FileStore) (ids : IdSet) :
    (s.replace ids).2.ids = bif (s.replace ids).1.isOk then ids else s.ids := by
  unfold replace
  rcases s.disk.write s.location.temporary (idsText ids) with ⟨_ | _, disk⟩
  · rfl
  · dsimp only
    rcases disk.move s.location.temporary s.location with ⟨_ | _, disk⟩ <;> rfl

namespace Store

/-- What adding, removing and clearing all come down to. -/
def replace (ids : IdSet) : Store → Except StoreError Unit × Store
  | memory s => let (result, s) := s.replace ids; (result, memory s)
  | file s => let (result, s) := s.replace ids; (result, file s)

theorem add_eq (s : Store) (id : FeatureId) : s.add id = s.replace (s.ids.insert id) := by
  cases s <;> rfl

theorem remove_eq (s : Store) (id : FeatureId) : s.remove id = s.replace (s.ids.erase id) := by
  cases s <;> rfl

theorem clear_eq (s : Store) : s.clear = s.replace .empty := by
  cases s <;> rfl

theorem ids_replace (s : Store) (ids : IdSet) :
    (s.replace ids).2.ids = bif (s.replace ids).1.isOk then ids else s.ids := by
  cases s with
  | memory s => exact s.ids_replace ids
  | file s => exact s.ids_replace ids

theorem load_ok {s : Store} {ids : List FeatureId} (loaded : s.load = .ok ids) : ids = s.ids.toList := by
  cases s with
  | memory s =>
    unfold load MemoryStore.load at loaded
    dsimp only at loaded
    split at loaded
    · cases loaded
    · exact (Except.ok.inj loaded).symm
  | file s => exact (Except.ok.inj loaded).symm

/-- What may befall a store between two calls: writes or loads are switched off or on, and a disk changes so
that what goes wrong next is another matter. The ids held stay. -/
inductive Stirs : Store → Store → Prop
  | memory (ids : IdSet) (readOnly loadRefused readOnly' loadRefused' : Bool) :
      Stirs (.memory ⟨ids, readOnly, loadRefused⟩) (.memory ⟨ids, readOnly', loadRefused'⟩)
  | file (location : Location) (ids : IdSet) (disk disk' : Disk) :
      Stirs (.file ⟨location, ids, disk⟩) (.file ⟨location, ids, disk'⟩)

theorem Stirs.ids {s t : Store} (stirs : s.Stirs t) : t.ids = s.ids := by
  cases stirs <;> rfl

end Store

namespace Session

variable {s t : Session} {config : Config} {store : Store}

/-- Nothing changes but the state of a disk. -/
structure Unmoved (s t : Session) : Prop where
  config : t.config = s.config
  network : t.network = s.network
  ids : t.store.ids = s.store.ids

theorem unmoved_refl (s : Session) : s.Unmoved s := ⟨rfl, rfl, rfl⟩

/-- A change to the network as the session makes it: it is checked, then the ids that it leaves blocked are
stored, and only then it is done. -/
def attempt (s : Session) (checked : Except NetworkError Unit) (ids : IdSet) (n : Network) :
    Except SessionError Unit × Session :=
  match checked with
  | .error error => (.error (.network error), s)
  | .ok () =>
    match s.store.replace ids with
    | (.error error, store) => (.error (.persistence error), { s with store })
    | (.ok (), store) => (.ok (), { s with store, network := some n })

/-- Once the ids are stored nothing can go wrong. -/
theorem block_eq {n : Network} (prepared : s.network = some n) (id : FeatureId) :
    s.block id = s.attempt (n.checkBlock id) (s.store.ids.insert id) (n.setBlocked id true) := by
  unfold block attempt
  rw [prepared]
  dsimp only
  cases checked : n.checkBlock id with
  | error error => rfl
  | ok done =>
    have blocks : n.block id = .ok (n.setBlocked id true) := by
      rw [Network.block, checked]
      rfl
    rcases replaced : s.store.replace (s.store.ids.insert id) with ⟨_ | _, store⟩
    · simp only [Store.add_eq, replaced]
    · simp only [Store.add_eq, replaced, blocks]

theorem unblock_eq {n : Network} (prepared : s.network = some n) (id : FeatureId) :
    s.unblock id = s.attempt (n.checkUnblock id) (s.store.ids.erase id) (n.setBlocked id false) := by
  unfold unblock attempt
  rw [prepared]
  dsimp only
  cases checked : n.checkUnblock id with
  | error error => rfl
  | ok done =>
    have unblocks : n.unblock id = .ok (n.setBlocked id false) := by
      rw [Network.unblock, checked]
      rfl
    rcases replaced : s.store.replace (s.store.ids.erase id) with ⟨_ | _, store⟩
    · simp only [Store.remove_eq, replaced]
    · simp only [Store.remove_eq, replaced, unblocks]

theorem unblockAll_eq {n : Network} (prepared : s.network = some n) :
    s.unblockAll = s.attempt (.ok ()) .empty n.unblockAll := by
  unfold unblockAll attempt
  rcases replaced : s.store.replace .empty with ⟨_ | _, store⟩
  · simp only [prepared, Store.clear_eq, replaced]
  · simp only [prepared, Store.clear_eq, replaced]

/-- All that an attempt does: it fails and moves nothing, or the change is stored and done. -/
theorem attempt_cases (s : Session) (checked : Except NetworkError Unit) (ids : IdSet) (n : Network) :
    (∃ error, (s.attempt checked ids n).1 = .error error ∧ s.Unmoved (s.attempt checked ids n).2) ∨
      (s.attempt checked ids n).1 = .ok () ∧ checked = .ok () ∧
        (s.attempt checked ids n).2.config = s.config ∧
        (s.attempt checked ids n).2.network = some n ∧ (s.attempt checked ids n).2.store.ids = ids := by
  unfold attempt
  cases checked with
  | error error => exact .inl ⟨_, rfl, s.unmoved_refl⟩
  | ok done =>
    have stored := s.store.ids_replace ids
    rcases replaced : s.store.replace ids with ⟨_ | _, store⟩
    · rw [replaced] at stored
      exact .inl ⟨_, rfl, rfl, rfl, stored⟩
    · rw [replaced] at stored
      exact .inr ⟨rfl, rfl, rfl, rfl, stored⟩

/-- All that blocking does: it fails and moves nothing, or blocks one vertex, in the store too. -/
theorem block_cases (s : Session) (id : FeatureId) :
    (∃ error, (s.block id).1 = .error error ∧ s.Unmoved (s.block id).2) ∨
      (s.block id).1 = .ok () ∧ ∃ n, s.network = some n ∧ n.containsVertex id = true ∧
        (s.block id).2.config = s.config ∧ (s.block id).2.network = some (n.setBlocked id true) ∧
        (s.block id).2.store.ids = s.store.ids.insert id := by
  cases prepared : s.network with
  | none =>
    unfold block
    rw [prepared]
    exact .inl ⟨_, rfl, s.unmoved_refl⟩
  | some n =>
    rw [block_eq prepared]
    refine (s.attempt_cases ..).imp_right fun ⟨done, checked, attempted⟩ => ?_
    exact ⟨done, n, rfl, Network.containsVertex_of_checkBlock checked, attempted⟩

/-- All that unblocking does. -/
theorem unblock_cases (s : Session) (id : FeatureId) :
    (∃ error, (s.unblock id).1 = .error error ∧ s.Unmoved (s.unblock id).2) ∨
      (s.unblock id).1 = .ok () ∧ ∃ n, s.network = some n ∧ n.containsVertex id = true ∧
        (s.unblock id).2.config = s.config ∧ (s.unblock id).2.network = some (n.setBlocked id false) ∧
        (s.unblock id).2.store.ids = s.store.ids.erase id := by
  cases prepared : s.network with
  | none =>
    unfold unblock
    rw [prepared]
    exact .inl ⟨_, rfl, s.unmoved_refl⟩
  | some n =>
    rw [unblock_eq prepared]
    refine (s.attempt_cases ..).imp_right fun ⟨done, checked, attempted⟩ => ?_
    exact ⟨done, n, rfl, Network.containsVertex_of_checkUnblock checked, attempted⟩

/-- All that unblocking every vertex does. -/
theorem unblockAll_cases (s : Session) :
    (∃ error, s.unblockAll.1 = .error error ∧ s.Unmoved s.unblockAll.2) ∨
      s.unblockAll.1 = .ok () ∧ ∃ n, s.network = some n ∧ s.unblockAll.2.config = s.config ∧
        s.unblockAll.2.network = some n.unblockAll ∧ s.unblockAll.2.store.ids = .empty := by
  cases prepared : s.network with
  | none =>
    unfold unblockAll
    rw [prepared]
    exact .inl ⟨_, rfl, s.unmoved_refl⟩
  | some n =>
    rw [unblockAll_eq prepared]
    refine (s.attempt_cases ..).imp_right fun ⟨done, _, attempted⟩ => ?_
    exact ⟨done, n, rfl, attempted⟩

/-- All that preparing does: it fails and moves nothing, or takes in a network that blocks those stored ids
that it has, if they are restored, and else nothing. -/
theorem prepare_cases (s : Session) (connections : List Connection) :
    (∃ error, (s.prepare connections).1 = .error error ∧ (s.prepare connections).2 = s) ∨
      (s.prepare connections).1 = .ok (Network.ofConnections connections).2 ∧
        ∃ n, (s.prepare connections).2 = { s with network := some n } ∧
          (∀ v, n.containsVertex v = (Network.ofConnections connections).1.containsVertex v) ∧
          ∀ v, n.isBlocked v = true ↔
            s.config.restoreBlocked = true ∧ v ∈ s.store.ids ∧ n.containsVertex v = true := by
  have fresh := Network.isBlocked_ofConnections connections
  unfold prepare
  dsimp only
  cases restores : s.config.restoreBlocked with
  | false =>
    refine .inr ⟨rfl, _, rfl, fun _ => rfl, fun v => ?_⟩
    simp [fresh v]
  | true =>
    cases loaded : s.store.load with
    | error error => exact .inl ⟨_, rfl, rfl⟩
    | ok ids =>
      have same := Store.load_ok loaded
      subst same
      simp only [if_true]
      cases restored : restore s.config.strict s.store.ids.toList (Network.ofConnections connections).1 with
      | error error => exact .inl ⟨_, rfl, rfl⟩
      | ok n =>
        obtain ⟨contains, blocked⟩ := Network.restore_ok restored
        refine .inr ⟨rfl, n, rfl, contains, fun v => ?_⟩
        rw [blocked, fresh, contains, IdSet.mem_toList]
        simp

/-- The search for alternatives leaves a session as it was. -/
theorem alternatives_unmoved (s : Session) (source target : FeatureId) (count : Nat) :
    (s.alternatives source target count).2 = s := by
  unfold alternatives
  split
  · rfl
  · split
    · rfl
    · next n prepared =>
      dsimp only
      rw [Network.network_alternatives, ← prepared]

theorem routing_unmoved (s : Session) (source target : FeatureId) (count : Nat) :
    (s.routing source target count).2 = s := by
  unfold routing
  dsimp only
  split
  · rfl
  · exact alternatives_unmoved ..

/-- What is answered to a question depends on the settings and the network alone. -/
theorem alternatives_congr (config : t.config = s.config) (network : t.network = s.network)
    (source target : FeatureId) (count : Nat) :
    (t.alternatives source target count).1 = (s.alternatives source target count).1 := by
  unfold alternatives
  rw [config, network]
  by_cases refused : count = 0 ∨ s.config.maxCount < count
  · rw [if_pos refused, if_pos refused]
  · rw [if_neg refused, if_neg refused]
    cases s.network <;> rfl

theorem routing_congr (config : t.config = s.config) (network : t.network = s.network)
    (source target : FeatureId) (count : Nat) :
    (t.routing source target count).1 = (s.routing source target count).1 := by
  have found := alternatives_congr config network source target count
  have same : t.prepared = s.prepared := by rw [prepared, prepared, network]
  unfold routing cheapestPath
  by_cases single : count = 1
  · simp only [if_pos single, same]
  · simp only [if_neg single, found, alternatives_unmoved, same]

theorem blockedAfter_session (result : Except SessionError Unit × Session) :
    (blockedAfter result).2 = result.2 := by
  rcases result with ⟨_ | _, s⟩ <;> rfl

/-- What an act keeps for each vertex, it keeps for a list of them, also if it breaks off. -/
theorem forEach_keeps {P : Session → Prop} {act : FeatureId → Session → Except SessionError Unit × Session}
    (each : ∀ (s : Session) (id : FeatureId), P s → P (act id s).2) (holds : P s)
    (vertices : List FeatureId) : P (forEach act vertices s).2 := by
  induction vertices generalizing s with
  | nil => exact holds
  | cons v rest ih =>
    have once := each s v holds
    unfold forEach
    rcases done : act v s with ⟨_ | _, t⟩
    · rw [done] at once
      exact once
    · rw [done] at once
      exact ih once

/-- What blocking and unblocking keep, every request keeps. -/
theorem execute_keeps {P : Session → Prop} (block : ∀ (s : Session) id, P s → P (s.block id).2)
    (unblock : ∀ (s : Session) id, P s → P (s.unblock id).2)
    (unblockAll : ∀ s : Session, P s → P s.unblockAll.2) (holds : P s) (request : Request) :
    P (s.execute request).2 := by
  cases request with
  | routing source target count =>
    show P (s.routing source target count).2
    rwa [routing_unmoved]
  | distribution emitters => exact holds
  | block vertices =>
    show P (blockedAfter (forEach Session.block vertices s)).2
    rw [blockedAfter_session]
    exact forEach_keeps block holds vertices
  | unblock vertices =>
    show P (blockedAfter (forEach Session.unblock vertices s)).2
    rw [blockedAfter_session]
    exact forEach_keeps unblock holds vertices
  | unblockAll =>
    show P (blockedAfter s.unblockAll).2
    rw [blockedAfter_session]
    exact unblockAll s holds

theorem config_block (s : Session) (id : FeatureId) : (s.block id).2.config = s.config := by
  rcases s.block_cases id with ⟨_, _, unmoved⟩ | ⟨_, _, _, _, kept, _⟩
  · exact unmoved.config
  · exact kept

theorem config_unblock (s : Session) (id : FeatureId) : (s.unblock id).2.config = s.config := by
  rcases s.unblock_cases id with ⟨_, _, unmoved⟩ | ⟨_, _, _, _, kept, _⟩
  · exact unmoved.config
  · exact kept

theorem config_unblockAll (s : Session) : s.unblockAll.2.config = s.config := by
  rcases s.unblockAll_cases with ⟨_, _, unmoved⟩ | ⟨_, _, _, kept, _⟩
  · exact unmoved.config
  · exact kept

theorem config_execute (s : Session) (request : Request) : (s.execute request).2.config = s.config :=
  execute_keeps (P := fun t => t.config = s.config) (fun t id same => (t.config_block id).trans same)
    (fun t id same => (t.config_unblock id).trans same) (fun t same => t.config_unblockAll.trans same) rfl request

/-- The blocked vertices are stored, and if stored ids are restored, then those that the network has are
blocked. -/
structure Mirrored (config : Config) (s : Session) : Prop where
  settings : s.config = config
  stored {n v} : s.network = some n → n.isBlocked v = true → v ∈ s.store.ids
  restored {n v} : config.restoreBlocked = true → s.network = some n → v ∈ s.store.ids →
    n.containsVertex v = true → n.isBlocked v = true

namespace Mirrored

theorem unmoved (mirrored : s.Mirrored config) (unmoved : s.Unmoved t) : t.Mirrored config where
  settings := unmoved.config.trans mirrored.settings
  stored prepared blocked := by
    rw [unmoved.ids]
    exact mirrored.stored (unmoved.network ▸ prepared) blocked
  restored restores prepared inStore known := by
    rw [unmoved.ids] at inStore
    exact mirrored.restored restores (unmoved.network ▸ prepared) inStore known

/-- One vertex blocked or unblocked in the network and in the store. -/
theorem change (mirrored : s.Mirrored config) {n : Network} {id : FeatureId} {blocked : Bool}
    (prepared : s.network = some n) (known : n.containsVertex id = true) (config' : t.config = s.config)
    (network' : t.network = some (n.setBlocked id blocked))
    (ids' : ∀ v, v ∈ t.store.ids ↔ if v = id then blocked = true else v ∈ s.store.ids) :
    t.Mirrored config := by
  have one (v : FeatureId) := Network.isBlocked_setBlocked known blocked v
  refine ⟨config'.trans mirrored.settings, fun {m v} prepared' isBlocked => ?_,
    fun {m v} restores prepared' inStore contained => ?_⟩
  · rw [network'] at prepared'
    cases prepared'
    rw [one] at isBlocked
    rw [ids']
    split
    · next same => rwa [if_pos same] at isBlocked
    · next other =>
      rw [if_neg other] at isBlocked
      exact mirrored.stored prepared isBlocked
  · rw [network'] at prepared'
    cases prepared'
    rw [ids'] at inStore
    rw [Network.containsVertex_setBlocked] at contained
    rw [one]
    split
    · next same => rwa [if_pos same] at inStore
    · next other =>
      rw [if_neg other] at inStore
      exact mirrored.restored restores prepared inStore contained

theorem block (mirrored : s.Mirrored config) (id : FeatureId) : (s.block id).2.Mirrored config := by
  rcases s.block_cases id with ⟨_, _, unmoved⟩ | ⟨_, n, prepared, known, config', network', ids'⟩
  · exact mirrored.unmoved unmoved
  · refine mirrored.change prepared known config' network' fun v => ?_
    rw [ids', IdSet.mem_insert]
    by_cases same : v = id <;> simp [same]

theorem unblock (mirrored : s.Mirrored config) (id : FeatureId) : (s.unblock id).2.Mirrored config := by
  rcases s.unblock_cases id with ⟨_, _, unmoved⟩ | ⟨_, n, prepared, known, config', network', ids'⟩
  · exact mirrored.unmoved unmoved
  · refine mirrored.change prepared known config' network' fun v => ?_
    rw [ids', IdSet.mem_erase]
    by_cases same : v = id <;> simp [same]

theorem unblockAll (mirrored : s.Mirrored config) : s.unblockAll.2.Mirrored config := by
  rcases s.unblockAll_cases with ⟨_, _, unmoved⟩ | ⟨_, n, prepared, config', network', ids'⟩
  · exact mirrored.unmoved unmoved
  · refine ⟨config'.trans mirrored.settings, fun {m v} prepared' isBlocked => ?_,
      fun {m v} _ _ inStore _ => ?_⟩
    · rw [network'] at prepared'
      cases prepared'
      rw [Network.isBlocked_unblockAll] at isBlocked
      cases isBlocked
    · rw [ids'] at inStore
      exact absurd inStore (IdSet.not_mem_empty v)

theorem prepare (mirrored : s.Mirrored config) (connections : List Connection) :
    (s.prepare connections).2.Mirrored config := by
  rcases s.prepare_cases connections with ⟨_, _, same⟩ | ⟨_, n, same, _, blocked⟩
  · exact same.symm ▸ mirrored
  · rw [same]
    refine ⟨mirrored.settings, fun {m v} prepared isBlocked => ?_,
      fun {m v} restores prepared inStore contained => ?_⟩
    · cases prepared
      exact ((blocked v).mp isBlocked).2.1
    · cases prepared
      exact (blocked v).mpr ⟨mirrored.settings.symm ▸ restores, inStore, contained⟩

end Mirrored

/-- The calls that may change a session. All other questions have no session in their answer. -/
inductive Call
  | prepare (connections : List Connection)
  | block (id : FeatureId)
  | unblock (id : FeatureId)
  | unblockAll
  | alternatives (source target : FeatureId) (count : Nat)
  | routing (source target : FeatureId) (count : Nat)
  | execute (request : Request)

/-- The session after a call, whether it succeeds or not. -/
def after (s : Session) : Call → Session
  | .prepare connections => (s.prepare connections).2
  | .block id => (s.block id).2
  | .unblock id => (s.unblock id).2
  | .unblockAll => s.unblockAll.2
  | .alternatives source target count => (s.alternatives source target count).2
  | .routing source target count => (s.routing source target count).2
  | .execute request => (s.execute request).2

@[simp] theorem after_alternatives (s : Session) (source target : FeatureId) (count : Nat) :
    s.after (.alternatives source target count) = s := s.alternatives_unmoved ..

@[simp] theorem after_routing (s : Session) (source target : FeatureId) (count : Nat) :
    s.after (.routing source target count) = s := s.routing_unmoved ..

@[simp] theorem after_execute_routing (s : Session) (source target : FeatureId) (count : Nat) :
    s.after (.execute (.routing source target count)) = s := s.routing_unmoved ..

@[simp] theorem after_execute_distribution (s : Session) (emitters : IdSet) :
    s.after (.execute (.distribution emitters)) = s := rfl

@[simp] theorem after_execute_unblockAll (s : Session) :
    s.after (.execute .unblockAll) = s.after .unblockAll := blockedAfter_session _

/-- Whether a call takes in a network. -/
def Call.takesIn : Call → Bool
  | .prepare _ => true
  | _ => false

/-- What blocking and unblocking keep, every call keeps that takes in no network. -/
theorem after_keeps {P : Session → Prop} (block : ∀ (s : Session) id, P s → P (s.block id).2)
    (unblock : ∀ (s : Session) id, P s → P (s.unblock id).2)
    (unblockAll : ∀ s : Session, P s → P s.unblockAll.2) (holds : P s) {c : Call} (other : c.takesIn = false) :
    P (s.after c) := by
  cases c with
  | prepare connections => cases other
  | block id => exact block s id holds
  | unblock id => exact unblock s id holds
  | unblockAll => exact unblockAll s holds
  | alternatives source target count => rwa [after_alternatives]
  | routing source target count => rwa [after_routing]
  | execute request => exact execute_keeps block unblock unblockAll holds request

/-- The sessions that calls lead to from a start, the store being stirred between them. -/
inductive Reached (store : Store) (config : Config) : Session → Prop
  | start : Reached store config (.start store config)
  | call {s : Session} (c : Call) : Reached store config s → Reached store config (s.after c)
  | stir {s : Session} {store' : Store} : Reached store config s → s.store.Stirs store' →
      Reached store config { s with store := store' }

/-- What every change keeps, and every stirring of the store, holds of the sessions that calls lead to. -/
theorem Reached.keeps {P : Session → Prop} (start : P (.start store config))
    (prepare : ∀ (s : Session) connections, P s → P (s.prepare connections).2)
    (block : ∀ (s : Session) id, P s → P (s.block id).2)
    (unblock : ∀ (s : Session) id, P s → P (s.unblock id).2)
    (unblockAll : ∀ s : Session, P s → P s.unblockAll.2)
    (stir : ∀ (s : Session) store', s.store.Stirs store' → P s → P { s with store := store' })
    (reached : Reached store config s) : P s := by
  induction reached with
  | start => exact start
  | @call s c _ ih =>
    cases c with
    | prepare connections => exact prepare s connections ih
    | _ => exact after_keeps block unblock unblockAll ih rfl
  | stir _ stirs ih => exact stir _ _ stirs ih

theorem Reached.mirrored (reached : Reached store config s) : s.Mirrored config := by
  refine reached.keeps (P := fun s => s.Mirrored config) ?_ (fun _ connections mirrored => mirrored.prepare connections)
    (fun _ id mirrored => mirrored.block id) (fun _ id mirrored => mirrored.unblock id)
    (fun _ mirrored => mirrored.unblockAll) fun _ _ stirs mirrored => mirrored.unmoved ⟨rfl, rfl, stirs.ids⟩
  exact ⟨rfl, fun prepared => absurd prepared.symm (Option.some_ne_none _),
    fun _ prepared => absurd prepared.symm (Option.some_ne_none _)⟩

/-- The network of a session is one that the public operations lead to. -/
theorem Reached.built (reached : Reached store config s) {n : Network} (prepared : s.network = some n) :
    n.Built := by
  -- The network after a call is the one before it, or some network that is built.
  have next {t : Session} {m : Network} (network : t.network = some m) (built : m.Built) :
      ∀ n, t.network = some n → n.Built := by
    intro n same
    rw [network] at same
    exact Option.some.inj same ▸ built
  refine reached.keeps (P := fun s => ∀ n, s.network = some n → n.Built) (fun n none => nomatch none)
    (fun s connections built => ?_) (fun s id built => ?_) (fun s id built => ?_) (fun s built => ?_)
    (fun _ _ _ built => built) n prepared
  · unfold Session.prepare
    dsimp only
    split
    · split
      · exact built
      · split
        · exact built
        · next restored => exact next rfl ((Network.built_ofConnections connections).restore restored)
    · exact next rfl (Network.built_ofConnections connections)
  · rcases s.block_cases id with ⟨_, _, unmoved⟩ | ⟨_, n, prepared, known, _, network, _⟩
    · rwa [unmoved.network]
    · exact next network ((built n prepared).setBlocked known true)
  · rcases s.unblock_cases id with ⟨_, _, unmoved⟩ | ⟨_, n, prepared, known, _, network, _⟩
    · rwa [unmoved.network]
    · exact next network ((built n prepared).setBlocked known false)
  · rcases s.unblockAll_cases with ⟨_, _, unmoved⟩ | ⟨_, n, prepared, _, network, _⟩
    · rwa [unmoved.network]
    · exact next network (built n prepared).unblockAll

/-- Whatever fails on the way, the blocked vertices are stored; and if stored ids are restored, the blocked
vertices are the stored ids that the network has, in ascending order. -/
theorem Reached.blockedVertices_stored (reached : Reached store config s) {n : Network}
    (prepared : s.network = some n) :
    (∀ id ∈ n.blockedVertices, id ∈ s.store.ids) ∧
      (config.restoreBlocked = true →
        n.blockedVertices = s.store.ids.toList.filter n.containsVertex) ∧
      n.blockedVertices.Pairwise (· < ·) := by
  have mirrored := reached.mirrored
  refine ⟨fun id blocked => mirrored.stored prepared (Network.mem_blockedVertices.mp blocked),
    fun restores => Network.blockedVertices_eq fun id => ⟨fun blocked => ?_, fun both => ?_⟩,
    n.blockedVertices_ascending⟩
  · exact ⟨mirrored.stored prepared blocked, Network.containsVertex_of_isBlocked blocked⟩
  · exact mirrored.restored restores prepared both.1 both.2

/-- Vertices 3 and 9 are stored, 9 being of some other network, and 2 is blocked. -/
def accepted : Session :=
  ((start (.memory (.ofList [3, 9])) .standard).after
    (.prepare [.bidirectional 1 2 12 (.ofInt 1), .bidirectional 2 3 23 (.ofInt 1)])).after (.block 2)

/-- The same, with writes refused from then on. -/
def refused : Session := { accepted with store := .memory ⟨accepted.store.ids, true, false⟩ }

/-- Unblocking fails then, and what is blocked stays stored. -/
theorem Reached.blockedVertices_stored_refused :
    Reached (.memory (.ofList [3, 9])) .standard (refused.after (.unblock 3)) ∧
      ∃ n, (refused.after (.unblock 3)).network = some n ∧
        n.blockedVertices = (refused.after (.unblock 3)).store.ids.toList.filter n.containsVertex ∧
        n.blockedVertices = [2, 3] ∧ (refused.after (.unblock 3)).store.ids.toList = [2, 3, 9] := by
  have shape : accepted.store = .memory ⟨accepted.store.ids, false, false⟩ := by decide +kernel
  have before : Reached (.memory (.ofList [3, 9])) .standard accepted :=
    (Reached.start.call (.prepare _)).call (.block 2)
  have stirs := Store.Stirs.memory accepted.store.ids false false true false
  rw [← shape] at stirs
  have reached : Reached (.memory (.ofList [3, 9])) .standard refused := before.stir stirs
  obtain ⟨n, prepared⟩ : ∃ n, (refused.after (.unblock 3)).network = some n :=
    Option.isSome_iff_exists.mp (by decide +kernel)
  have blocked : (refused.after (.unblock 3)).network.map (·.blockedVertices) = some [2, 3] := by
    decide +kernel
  have later := reached.call (.unblock 3)
  obtain ⟨_, restored, _⟩ := later.blockedVertices_stored prepared
  rw [prepared] at blocked
  exact ⟨later, n, prepared, restored rfl, Option.some.inj blocked, by decide +kernel⟩

end Session

end FeatureNet
