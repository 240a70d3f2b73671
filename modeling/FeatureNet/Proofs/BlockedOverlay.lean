import FeatureNet.Proofs.SessionRuns

namespace FeatureNet

namespace Network

variable {n m base : Network} {id v : FeatureId} {ids : IdSet}

theorem ext_vertex? (edges : m.edges = n.edges) (vertices : ∀ v, m.vertex? v = n.vertex? v) : m = n := by
  obtain ⟨vertices', edges'⟩ := m
  cases edges
  exact congrArg (mk · n.edges) (IdMap.ext_get? vertices)

/-- The network with the vertices of a set blocked, and no others. Blocking and unblocking put an id on it
or take one off, so the order in which that happened leaves no trace. -/
def blockedBy (n : Network) (ids : IdSet) : Network :=
  { n with vertices := n.vertices.mapValues fun id v => { v with blocked := decide (id ∈ ids) } }

theorem vertex?_blockedBy (n : Network) (ids : IdSet) (v : FeatureId) :
    (n.blockedBy ids).vertex? v = (n.vertex? v).map fun w => { w with blocked := decide (v ∈ ids) } :=
  IdMap.get?_mapValues ..

@[simp] theorem containsVertex_blockedBy (n : Network) (ids : IdSet) (v : FeatureId) :
    (n.blockedBy ids).containsVertex v = n.containsVertex v := by
  rw [containsVertex_eq, containsVertex_eq, vertex?_blockedBy, Option.isSome_map]

/-- Ids that the network lacks block nothing. -/
theorem blockedBy_congr {ids' : IdSet}
    (same : ∀ v, n.containsVertex v = true → (v ∈ ids ↔ v ∈ ids')) : n.blockedBy ids = n.blockedBy ids' := by
  refine ext_vertex? rfl fun v => ?_
  rw [vertex?_blockedBy, vertex?_blockedBy]
  cases found : n.vertex? v with
  | none => rfl
  | some w =>
    have known : n.containsVertex v = true := by rw [containsVertex_eq, found, Option.isSome_some]
    rw [decide_eq_decide.mpr (same v known)]

theorem blockedBy_empty (unblocked : ∀ v, n.isBlocked v = false) : n.blockedBy .empty = n := by
  refine ext_vertex? rfl fun v => ?_
  have free := unblocked v
  unfold isBlocked at free
  rw [vertex?_blockedBy]
  cases found : n.vertex? v with
  | none => rfl
  | some w =>
    obtain ⟨blocked, outgoing⟩ := w
    rw [found] at free
    cases blocked with
    | false => simp
    | true => cases free

/-- Setting the flag of one vertex puts its id on the set, or takes it off. -/
theorem setBlocked_blockedBy {ids' : IdSet} {blocked : Bool}
    (one : ∀ v, v ∈ ids' ↔ if v = id then blocked = true else v ∈ ids) :
    (n.blockedBy ids).setBlocked id blocked = n.blockedBy ids' := by
  refine ext_vertex? rfl fun v => ?_
  rw [vertex?_setBlocked, vertex?_blockedBy, vertex?_blockedBy, Option.map_map]
  refine congrArg (Option.map · (n.vertex? v)) (funext fun w => ?_)
  by_cases same : v = id
  · simp [one, same]
  · simp [one, same]

theorem setBlocked_blockedBy_true (n : Network) (ids : IdSet) (id : FeatureId) :
    (n.blockedBy ids).setBlocked id true = n.blockedBy (ids.insert id) :=
  setBlocked_blockedBy fun v => by by_cases same : v = id <;> simp [same]

theorem setBlocked_blockedBy_false (n : Network) (ids : IdSet) (id : FeatureId) :
    (n.blockedBy ids).setBlocked id false = n.blockedBy (ids.erase id) :=
  setBlocked_blockedBy fun v => by by_cases same : v = id <;> simp [same]

theorem unblockAll_blockedBy (n : Network) (ids : IdSet) :
    (n.blockedBy ids).unblockAll = n.blockedBy .empty := by
  refine ext_vertex? rfl fun v => ?_
  rw [vertex?_unblockAll, vertex?_blockedBy, vertex?_blockedBy, Option.map_map]
  exact congrArg (Option.map · (n.vertex? v)) (funext fun w => by simp)

theorem isBlocked_blockedBy (known : n.containsVertex v = true) :
    (n.blockedBy ids).isBlocked v = decide (v ∈ ids) := by
  obtain ⟨w, found⟩ := Option.isSome_iff_exists.mp (containsVertex_eq n v ▸ known)
  unfold isBlocked
  rw [vertex?_blockedBy, found]
  rfl

/-- Restoring ids puts them all on the set, if the network has them or need not have them. -/
theorem restore_blockedBy {strict : Bool} {stored : List FeatureId}
    (known : strict = true → ∀ id ∈ stored, base.containsVertex id = true) :
    Session.restore strict stored (base.blockedBy ids) = .ok (base.blockedBy (stored.foldl .insert ids)) := by
  induction stored generalizing ids with
  | nil => rfl
  | cons id rest ih =>
    have onward : Session.restore strict rest (base.blockedBy (ids.insert id)) =
        .ok (base.blockedBy (rest.foldl .insert (ids.insert id))) :=
      ih fun isStrict v member => known isStrict v (List.mem_cons_of_mem _ member)
    rw [List.foldl_cons, ← onward]
    rcases restore_cons strict id rest (base.blockedBy ids) with
      ⟨_, _, same⟩ | ⟨contained, before, same⟩ | ⟨unknown, same⟩
    · rw [same, setBlocked_blockedBy_true]
    · rw [containsVertex_blockedBy] at contained
      rw [isBlocked_blockedBy contained] at before
      have old : base.blockedBy ids = base.blockedBy (ids.insert id) :=
        blockedBy_congr fun v _ => by
          rw [IdSet.mem_insert]
          exact ⟨.inr, fun either => either.elim (fun own => own ▸ of_decide_eq_true before) fun old => old⟩
      rw [same, old]
    · rw [containsVertex_blockedBy] at unknown
      have lenient : strict = false := by
        cases strict with
        | false => rfl
        | true =>
          have contained := known rfl id (List.mem_cons_self ..)
          rw [unknown] at contained
          cases contained
      have idle : base.blockedBy ids = base.blockedBy (ids.insert id) :=
        blockedBy_congr fun v contained => by
          have other : v ≠ id := by
            rintro rfl
            rw [unknown] at contained
            cases contained
          simp [other]
      rw [same, lenient, idle]
      rfl

/-- Restoring a set on a network that blocks nothing. -/
theorem restore_toList {strict : Bool} (unblocked : ∀ v, base.isBlocked v = false)
    (known : strict = true → ∀ id ∈ ids, base.containsVertex id = true) :
    Session.restore strict ids.toList base = .ok (base.blockedBy ids) := by
  have restored : Session.restore strict ids.toList (base.blockedBy .empty) =
      .ok (base.blockedBy (.ofList ids.toList)) :=
    restore_blockedBy fun isStrict id member => known isStrict id (IdSet.mem_toList.mp member)
  rwa [blockedBy_empty unblocked, IdSet.ofList_toList] at restored

/-- If restoring is strict and succeeds, the network has every id. -/
theorem known_of_restore {stored : List FeatureId} (restored : Session.restore true stored n = .ok m) :
    ∀ id ∈ stored, n.containsVertex id = true := by
  induction stored generalizing n with
  | nil => simp
  | cons id rest ih =>
    intro v member
    rcases restore_cons true id rest n with ⟨known, _, same⟩ | ⟨known, _, same⟩ | ⟨_, same⟩
    · rw [same] at restored
      rcases List.mem_cons.mp member with rfl | later
      · exact known
      · rw [← containsVertex_setBlocked n id true v]
        exact ih restored v later
    · rw [same] at restored
      rcases List.mem_cons.mp member with rfl | later
      · exact known
      · exact ih restored v later
    · rw [same] at restored
      cases restored

end Network

namespace Session

variable {s t : Session} {base : Network} {connections : List Connection}

/-- The network is the base with the stored ids blocked; and if the settings are strict, the base has them
all. -/
structure Overlaid (base : Network) (s : Session) : Prop where
  network : s.network = some (base.blockedBy s.store.ids)
  known : s.config.strict = true → ∀ id ∈ s.store.ids, base.containsVertex id = true

namespace Overlaid

theorem unmoved (overlaid : s.Overlaid base) (unmoved : s.Unmoved t) : t.Overlaid base where
  network := by rw [unmoved.network, unmoved.ids, overlaid.network]
  known := by
    rw [unmoved.config, unmoved.ids]
    exact overlaid.known

theorem block (overlaid : s.Overlaid base) (id : FeatureId) : (s.block id).2.Overlaid base := by
  rcases s.block_cases id with ⟨_, _, unmoved⟩ | ⟨_, n, prepared, contained, config', network', ids'⟩
  · exact overlaid.unmoved unmoved
  · rw [overlaid.network] at prepared
    cases prepared
    refine ⟨by rw [network', ids', Network.setBlocked_blockedBy_true], ?_⟩
    rw [config', ids']
    intro strict v member
    rcases IdSet.mem_insert.mp member with rfl | old
    · rwa [Network.containsVertex_blockedBy] at contained
    · exact overlaid.known strict v old

theorem unblock (overlaid : s.Overlaid base) (id : FeatureId) : (s.unblock id).2.Overlaid base := by
  rcases s.unblock_cases id with ⟨_, _, unmoved⟩ | ⟨_, n, prepared, _, config', network', ids'⟩
  · exact overlaid.unmoved unmoved
  · rw [overlaid.network] at prepared
    cases prepared
    refine ⟨by rw [network', ids', Network.setBlocked_blockedBy_false], ?_⟩
    rw [config', ids']
    exact fun strict v member => overlaid.known strict v (IdSet.mem_erase.mp member).2

theorem unblockAll (overlaid : s.Overlaid base) : s.unblockAll.2.Overlaid base := by
  rcases s.unblockAll_cases with ⟨_, _, unmoved⟩ | ⟨_, n, prepared, _, network', ids'⟩
  · exact overlaid.unmoved unmoved
  · rw [overlaid.network] at prepared
    cases prepared
    refine ⟨by rw [network', ids', Network.unblockAll_blockedBy], ?_⟩
    rw [ids']
    exact fun _ v member => absurd member (IdSet.not_mem_empty v)

/-- Whatever comes of a request, the network stays the base under the stored ids. -/
theorem execute (overlaid : s.Overlaid base) (request : Request) : (s.execute request).2.Overlaid base :=
  execute_keeps (fun _ id overlaid => overlaid.block id) (fun _ id overlaid => overlaid.unblock id)
    (fun _ overlaid => overlaid.unblockAll) overlaid request

end Overlaid

/-- Preparing anew gives the network of the connections under the stored ids, if they are restored and
loading them succeeds, and if the connections have them or need not have them. -/
theorem prepare_eq (restores : s.config.restoreBlocked = true)
    (loaded : s.store.load = .ok s.store.ids.toList)
    (known : s.config.strict = true →
      ∀ id ∈ s.store.ids, (Network.ofConnections connections).1.containsVertex id = true) :
    s.prepare connections =
      (.ok (Network.ofConnections connections).2,
        { s with network := some ((Network.ofConnections connections).1.blockedBy s.store.ids) }) := by
  have restored := Network.restore_toList (Network.isBlocked_ofConnections connections) known
  unfold prepare
  simp only [restores, loaded, restored, if_true]

/-- Where preparing succeeds, strict settings hold. -/
theorem known_of_prepare {report : Report} (restores : s.config.restoreBlocked = true)
    (prepared : (s.prepare connections).1 = .ok report) (strict : s.config.strict = true) :
    ∀ id ∈ s.store.ids, (Network.ofConnections connections).1.containsVertex id = true := by
  unfold prepare at prepared
  simp only [restores, strict, if_true] at prepared
  cases loaded : s.store.load with
  | error error =>
    rw [loaded] at prepared
    cases prepared
  | ok ids =>
    cases restored : restore true ids (Network.ofConnections connections).1 with
    | error error =>
      rw [loaded] at prepared
      simp [restored] at prepared
    | ok n =>
      intro id member
      refine Network.known_of_restore restored id ?_
      rw [Store.load_ok loaded]
      exact IdSet.mem_toList.mpr member

end Session

end FeatureNet
