import FeatureNet.Proofs.BlockedOverlay
import FeatureNet.Proofs.IntakeAccounts

namespace FeatureNet

open Network

namespace Network

variable {n : Network} {id v : FeatureId} {connections : List Connection}

/-- Whether an id is an end of some connection. -/
def EndOf (connections : List Connection) (id : FeatureId) : Prop :=
  ∃ c ∈ connections, id = c.source ∨ id = c.target

instance (connections : List Connection) (id : FeatureId) : Decidable (EndOf connections id) :=
  inferInstanceAs (Decidable (∃ c ∈ connections, _))

theorem containsVertex_ofConnections :
    (ofConnections connections).1.containsVertex v = true ↔ EndOf connections v :=
  (Intake.follows_extend connections).vertices

theorem lacks_ofConnections :
    (!(ofConnections connections).1.containsVertex v) = true ↔ ¬EndOf connections v := by
  rw [Bool.not_eq_true', ← Bool.not_eq_true, containsVertex_ofConnections]

theorem blockedVertices_blockedBy (n : Network) (ids : IdSet) :
    (n.blockedBy ids).blockedVertices = ids.toList.filter n.containsVertex := by
  have same (v : FeatureId) :
      (n.blockedBy ids).isBlocked v = true ↔ v ∈ ids ∧ (n.blockedBy ids).containsVertex v = true := by
    rw [containsVertex_blockedBy]
    refine ⟨fun blocked => ?_, fun both => ?_⟩
    · have known := containsVertex_of_isBlocked blocked
      rw [containsVertex_blockedBy] at known
      rw [isBlocked_blockedBy known] at blocked
      exact ⟨of_decide_eq_true blocked, known⟩
    · rw [isBlocked_blockedBy both.2]
      exact decide_eq_true both.1
  rw [blockedVertices_eq same]
  exact List.filter_congr fun v _ => containsVertex_blockedBy ..

/-- Strict restoring fails at the first id that the network lacks. -/
theorem restore_lacking {ids : List FeatureId} (first : ids.find? (fun v => !n.containsVertex v) = some id) :
    Session.restore true ids n = .error (.vertexNotFound id) := by
  induction ids generalizing n with
  | nil => cases first
  | cons v rest ih =>
    rcases restore_cons true v rest n with ⟨known, _, same⟩ | ⟨known, _, same⟩ | ⟨unknown, same⟩
    · rw [List.find?_cons_of_neg (by simp [known])] at first
      rw [same]
      exact ih (by simpa only [containsVertex_setBlocked] using first)
    · rw [List.find?_cons_of_neg (by simp [known])] at first
      rw [same]
      exact ih first
    · rw [List.find?_cons_of_pos (by simp [unknown])] at first
      cases first
      exact same

end Network

/-- In ascending order the first id with a property is the smallest. -/
theorem IdSet.smallest_of_find? {ids : IdSet} {p : FeatureId → Bool} {id : FeatureId}
    (first : ids.toList.find? p = some id) :
    id ∈ ids.toList ∧ p id = true ∧ ∀ other ∈ ids.toList, p other = true → ¬other < id := by
  obtain ⟨holds, before, after, split, fails⟩ := List.find?_eq_some_iff_append.mp first
  have ascending := ids.toList_ascending
  rw [split] at ascending ⊢
  obtain ⟨_, behind, _⟩ := List.pairwise_append.mp ascending
  refine ⟨by simp, holds, fun other member holds' less => ?_⟩
  rcases List.mem_append.mp member with early | late
  · have fails' := fails other early
    rw [holds'] at fails'
    cases fails'
  · rcases List.mem_cons.mp late with rfl | later
    · exact FeatureId.lt_irrefl _ less
    · exact FeatureId.lt_irrefl _ (FeatureId.lt_trans less ((List.pairwise_cons.mp behind).1 other later))

namespace Session

variable {s t : Session} {connections : List Connection}

/-- The ids that preparing restores; none if the settings say so. -/
def toRestore (s : Session) : IdSet := if s.config.restoreBlocked then s.store.ids else .empty

/-- All that preparing does: the load fails, strict settings refuse the first id that the connections lack, or
the network of the connections takes the place of the one before, with the ids restored. -/
theorem prepare_outcome (s : Session) (connections : List Connection) :
    s.config.restoreBlocked = true ∧ (∃ cause, s.store.load = .error cause ∧
        s.prepare connections = (.error (.persistence cause), s)) ∨
      (s.config.restoreBlocked = true ∧ s.config.strict = true ∧ s.store.load = .ok s.store.ids.toList ∧
        ∃ id, s.store.ids.toList.find? (fun v => !(ofConnections connections).1.containsVertex v) = some id ∧
          s.prepare connections = (.error (.network (.vertexNotFound id)), s)) ∨
      (s.config.restoreBlocked = true → s.store.load = .ok s.store.ids.toList ∧ (s.config.strict = true →
        ∀ id ∈ s.store.ids, (ofConnections connections).1.containsVertex id = true)) ∧
        s.prepare connections = (.ok (ofConnections connections).2,
          { s with network := some ((ofConnections connections).1.blockedBy s.toRestore) }) := by
  have free := isBlocked_ofConnections connections
  cases restores : s.config.restoreBlocked with
  | false =>
    refine .inr (.inr ⟨nofun, ?_⟩)
    simp only [prepare, toRestore, restores, blockedBy_empty free, Bool.false_eq_true, if_false]
  | true =>
    have stored : s.toRestore = s.store.ids := if_pos restores
    cases loaded : s.store.load with
    | error cause =>
      refine .inl ⟨rfl, cause, rfl, ?_⟩
      simp only [prepare, restores, loaded, if_true]
    | ok ids =>
      have same := Store.load_ok loaded
      subst same
      by_cases known : s.config.strict = true →
          ∀ id ∈ s.store.ids, (ofConnections connections).1.containsVertex id = true
      · refine .inr (.inr ⟨fun _ => ⟨rfl, known⟩, ?_⟩)
        rw [stored, prepare_eq restores loaded known]
      · obtain ⟨strict, lacking⟩ := Classical.not_imp.mp known
        refine .inr (.inl ⟨rfl, strict, rfl, ?_⟩)
        cases first : s.store.ids.toList.find? fun v => !(ofConnections connections).1.containsVertex v with
        | none =>
          refine absurd (fun id member => ?_) lacking
          simpa using List.find?_eq_none.mp first id (IdSet.mem_toList.mpr member)
        | some id =>
          refine ⟨id, rfl, ?_⟩
          simp only [prepare, restores, loaded, strict, restore_lacking first, if_true]

/-- What later calls that take in no network lead to, the store being stirred between them. -/
inductive Later (s : Session) : Session → Prop
  | here : Later s s
  | call {t : Session} (c : Call) : Later s t → c.takesIn = false → Later s (t.after c)
  | stir {t : Session} {store' : Store} : Later s t → t.store.Stirs store' → Later s { t with store := store' }

/-- The settings stay, and the network stays that of the connections under the stored ids. -/
theorem Later.overlaid {base : Network} (later : Later s t) (overlaid : s.Overlaid base) :
    t.config = s.config ∧ t.Overlaid base := by
  induction later with
  | here => exact ⟨rfl, overlaid⟩
  | call c _ other ih =>
    refine after_keeps (P := fun t => t.config = s.config ∧ t.Overlaid base) (fun t id ⟨config, overlaid⟩ => ?_)
      (fun t id ⟨config, overlaid⟩ => ?_) (fun t ⟨config, overlaid⟩ => ?_) ih other
    · exact ⟨(t.config_block id).trans config, overlaid.block id⟩
    · exact ⟨(t.config_unblock id).trans config, overlaid.unblock id⟩
    · exact ⟨t.config_unblockAll.trans config, overlaid.unblockAll⟩
  | stir _ stirs ih => exact ⟨ih.1, ih.2.unmoved ⟨rfl, rfl, stirs.ids⟩⟩

theorem prepare_ok_iff (s : Session) (connections : List Connection) :
    (∃ report, (s.prepare connections).1 = .ok report) ↔ s.config.restoreBlocked = false ∨
      ∃ ids, s.store.load = .ok ids ∧ (s.config.strict = false ∨ ∀ id ∈ ids, EndOf connections id) := by
  have off (restores : s.config.restoreBlocked = true) : s.config.restoreBlocked ≠ false := by simp [restores]
  rcases s.prepare_outcome connections with
    ⟨restores, cause, failed, done⟩ | ⟨restores, strict, loaded, id, first, done⟩ | ⟨restored, done⟩
  · rw [done, or_iff_right (off restores)]
    refine iff_of_false (fun ⟨_, answered⟩ => nomatch answered) ?_
    rintro ⟨ids, loaded, _⟩
    rw [failed] at loaded
    cases loaded
  · rw [done, or_iff_right (off restores)]
    refine iff_of_false (fun ⟨_, answered⟩ => nomatch answered) ?_
    rintro ⟨ids, loaded', lenient | ends⟩
    · rw [strict] at lenient
      cases lenient
    · rw [loaded] at loaded'
      cases loaded'
      obtain ⟨member, lacks, _⟩ := IdSet.smallest_of_find? first
      exact lacks_ofConnections.mp lacks (ends id member)
  · rw [done]
    refine iff_of_true ⟨_, rfl⟩ ?_
    cases restores : s.config.restoreBlocked with
    | false => exact .inl rfl
    | true =>
      obtain ⟨loaded, known⟩ := restored restores
      refine .inr ⟨_, loaded, ?_⟩
      cases strict : s.config.strict with
      | false => exact .inl rfl
      | true =>
        exact .inr fun id member => containsVertex_ofConnections.mp (known strict id (IdSet.mem_toList.mp member))

/-- What a session is after preparing: the network of the connections with the loaded ids blocked takes the place
of the one before, and nothing else changes. -/
structure Renewed (s : Session) (connections : List Connection) (n : Network) (t : Session) : Prop where
  session : t = { s with network := some n }
  unrestored : s.config.restoreBlocked = false → n = (ofConnections connections).1 ∧ n.blockedVertices = []
  restored : s.config.restoreBlocked = true → ∃ ids, s.store.load = .ok ids ∧
    n = (ofConnections connections).1.blockedBy (.ofList ids) ∧
    n.blockedVertices = ids.filter (EndOf connections ·)

theorem prepare_ok {report : Report} (prepared : (s.prepare connections).1 = .ok report) :
    report = (ofConnections connections).2 ∧ ∃ n, s.Renewed connections n (s.prepare connections).2 := by
  rcases s.prepare_outcome connections with ⟨_, _, _, done⟩ | ⟨_, _, _, _, _, done⟩ | ⟨restored, done⟩
  · rw [done] at prepared
    cases prepared
  · rw [done] at prepared
    cases prepared
  · rw [done] at prepared ⊢
    refine ⟨(Except.ok.inj prepared).symm, _, rfl, fun off => ?_, fun restores => ?_⟩
    · have none : s.toRestore = .empty := if_neg (by simp [off])
      rw [none]
      exact ⟨blockedBy_empty (isBlocked_ofConnections connections), blockedVertices_blockedBy _ .empty⟩
    · have all : s.toRestore = s.store.ids := if_pos restores
      refine ⟨_, (restored restores).1, by rw [all, IdSet.ofList_toList], ?_⟩
      rw [all, blockedVertices_blockedBy]
      refine List.filter_congr fun v _ => ?_
      rw [Bool.eq_iff_iff, containsVertex_ofConnections, decide_eq_true_iff]

theorem prepare_failed {error : SessionError} (failed : (s.prepare connections).1 = .error error) :
    (s.prepare connections).2 = s ∧
      ((∃ cause, s.store.load = .error cause ∧ error = .persistence cause) ∨
        ∃ ids id, s.store.load = .ok ids ∧ id ∈ ids ∧ ¬EndOf connections id ∧
          (∀ other ∈ ids, ¬EndOf connections other → ¬other < id) ∧
          error = .network (.vertexNotFound id)) := by
  rcases s.prepare_outcome connections with
    ⟨_, cause, loaded, done⟩ | ⟨_, _, loaded, id, first, done⟩ | ⟨_, done⟩
  · rw [done] at failed ⊢
    exact ⟨rfl, .inl ⟨cause, loaded, (Except.error.inj failed).symm⟩⟩
  · rw [done] at failed ⊢
    obtain ⟨member, lacks, smallest⟩ := IdSet.smallest_of_find? first
    refine ⟨rfl, .inr ⟨_, id, loaded, member, lacks_ofConnections.mp lacks, fun other isOther lacks' => ?_,
      (Except.error.inj failed).symm⟩⟩
    exact smallest other isOther (lacks_ofConnections.mpr lacks')
  · rw [done] at failed
    cases failed

/-- Preparing anew changes nothing. -/
theorem prepare_again {report : Report} (restores : s.config.restoreBlocked = true)
    (prepared : (s.prepare connections).1 = .ok report) (later : Later (s.prepare connections).2 t)
    {ids : List FeatureId} (loaded : t.store.load = .ok ids) :
    t.prepare connections = (.ok (ofConnections connections).2, t) := by
  have known := known_of_prepare restores prepared
  obtain ⟨_, n, renewed⟩ := prepare_ok prepared
  obtain ⟨ids', loaded', restored, _⟩ := renewed.restored restores
  rw [Store.load_ok loaded', IdSet.ofList_toList] at restored
  rw [renewed.session, restored] at later
  obtain ⟨config, overlaid⟩ := later.overlaid ⟨rfl, known⟩
  have sameIds := Store.load_ok loaded
  subst sameIds
  rw [prepare_eq (config ▸ restores) loaded overlaid.known, ← overlaid.network]

/-- Whatever the session was before, preparing succeeds exactly if nothing is to be restored, or the ids can be
loaded and are ends of connections where the settings are strict. The network is then that of the connections with
the loaded ids blocked, nothing else of the session changes, and the report is the one on the connections. If it
fails all stays, and the error is that of the load or names the smallest id that is missing. And where ids are
restored, whatever is called after preparing, preparing anew leaves the session as it is, if the ids can be loaded. -/
theorem prepare_exact (s : Session) (connections : List Connection) :
    ((∃ report, (s.prepare connections).1 = .ok report) ↔ s.config.restoreBlocked = false ∨
      ∃ ids, s.store.load = .ok ids ∧ (s.config.strict = false ∨ ∀ id ∈ ids, EndOf connections id)) ∧
    (∀ report, (s.prepare connections).1 = .ok report → report = (ofConnections connections).2 ∧
      ∃ n, s.Renewed connections n (s.prepare connections).2) ∧
    (∀ error, (s.prepare connections).1 = .error error → (s.prepare connections).2 = s ∧
      ((∃ cause, s.store.load = .error cause ∧ error = .persistence cause) ∨
        ∃ ids id, s.store.load = .ok ids ∧ id ∈ ids ∧ ¬EndOf connections id ∧
          (∀ other ∈ ids, ¬EndOf connections other → ¬other < id) ∧ error = .network (.vertexNotFound id))) ∧
    ∀ report, s.config.restoreBlocked = true → (s.prepare connections).1 = .ok report →
      ∀ t ids, Later (s.prepare connections).2 t → t.store.load = .ok ids →
        t.prepare connections = (.ok (ofConnections connections).2, t) :=
  ⟨s.prepare_ok_iff connections, fun _ => prepare_ok, fun _ => prepare_failed,
    fun _ restores prepared _ _ later loaded => prepare_again restores prepared later loaded⟩

/-- The connector of the second connection is taken when the third comes. -/
def roads : List Connection :=
  [.bidirectional 1 2 12 (.ofInt 1), .directed 3 2 32 (.ofInt 1), .bidirectional 2 4 32 .zero]

/-- Strict settings, and two stored ids that the roads lack. -/
def mislaid : Session := start (.memory (.ofList [9, 3, 7])) { Config.standard with strict := true }

/-- The same ids with settings that pass over those two. -/
def lenient : Session := start (.memory (.ofList [9, 3, 7])) .standard

/-- Then another vertex is blocked, and after that writes are refused. -/
def guarded : Session := ((lenient.prepare roads).2.after (.block 2))

/-- Of the two ids the smaller is named. Where they are passed over, a vertex blocked later is blocked still when
the network is prepared anew, and so is one that could not be unblocked. -/
theorem prepare_exact_roads :
    (mislaid.prepare roads).1 = .error (.network (.vertexNotFound 7)) ∧ (mislaid.prepare roads).2 = mislaid ∧
      ∃ report, (lenient.prepare roads).1 = .ok report ∧
        ∃ t, Later (lenient.prepare roads).2 t ∧ t.store.ids.toList = [2, 3, 7, 9] ∧
          t.network.map (·.blockedVertices) = some [2, 3] ∧
          t.prepare roads = (.ok (ofConnections roads).2, t) := by
  have failed : (mislaid.prepare roads).1 = .error (.network (.vertexNotFound 7)) := by decide +kernel
  obtain ⟨succeeds, _, _, again⟩ := prepare_exact lenient roads
  obtain ⟨report, prepared⟩ := succeeds.mpr (.inr ⟨_, rfl, .inl rfl⟩)
  have shape : guarded.store = .memory ⟨guarded.store.ids, false, false⟩ := by decide +kernel
  have stirs := Store.Stirs.memory guarded.store.ids false false true false
  rw [← shape] at stirs
  have later := ((Later.here.call (.block 2) rfl).stir stirs).call (.unblock 3) rfl
  refine ⟨failed, ((prepare_exact mislaid roads).2.2.1 _ failed).1, report, prepared, _, later, ?_, ?_,
    again report rfl prepared _ [2, 3, 7, 9] later ?_⟩
  · decide +kernel
  · decide +kernel
  · decide +kernel

end Session

end FeatureNet
