import FeatureNet.Proofs.BuiltNetworks
import FeatureNet.Proofs.MatchedMaps
import FeatureNet.Session

namespace FeatureNet

namespace Network

variable {n m : Network} {id v : FeatureId}

theorem mem_blockedVertices : id ∈ n.blockedVertices ↔ n.isBlocked id = true := by
  unfold blockedVertices isBlocked vertex?
  rw [List.mem_map]
  constructor
  · rintro ⟨⟨key, w⟩, member, rfl⟩
    obtain ⟨entry, blocked⟩ := List.mem_filter.mp member
    rw [IdMap.mem_entries_iff.mp entry]
    exact blocked
  · intro blocked
    cases found : n.vertices.get? id with
    | none =>
      rw [found] at blocked
      cases blocked
    | some w =>
      rw [found] at blocked
      exact ⟨(id, w), List.mem_filter.mpr ⟨IdMap.mem_entries_iff.mpr found, blocked⟩, rfl⟩

theorem containsVertex_of_isBlocked (blocked : n.isBlocked id = true) : n.containsVertex id = true := by
  unfold isBlocked at blocked
  rw [containsVertex_eq]
  cases found : n.vertex? id with
  | none =>
    rw [found] at blocked
    cases blocked
  | some w => rfl

theorem isBlocked_setBlocked (known : n.containsVertex id = true) (blocked : Bool) (v : FeatureId) :
    (n.setBlocked id blocked).isBlocked v = if v = id then blocked else n.isBlocked v := by
  unfold isBlocked
  rw [vertex?_setBlocked]
  by_cases same : v = id
  · subst same
    obtain ⟨w, found⟩ := Option.isSome_iff_exists.mp (containsVertex_eq n v ▸ known)
    simp [found]
  · cases n.vertex? v <;> simp [same]

theorem containsVertex_setBlocked (n : Network) (id : FeatureId) (blocked : Bool) (v : FeatureId) :
    (n.setBlocked id blocked).containsVertex v = n.containsVertex v := by
  rw [containsVertex_eq, containsVertex_eq, vertex?_setBlocked, Option.isSome_map]

theorem isBlocked_unblockAll (n : Network) (v : FeatureId) : n.unblockAll.isBlocked v = false := by
  unfold isBlocked
  rw [vertex?_unblockAll]
  cases n.vertex? v <;> rfl

theorem isBlocked_addVertex (n : Network) (id v : FeatureId) :
    (n.addVertex id).isBlocked v = n.isBlocked v := by
  unfold isBlocked
  rw [vertex?_addVertex]
  by_cases same : v = id
  · subst same
    cases n.vertex? v <;> simp
  · rw [if_neg same]

theorem isBlocked_addEdge {e : Edge} (added : n.addEdge e = .ok m) (v : FeatureId) :
    m.isBlocked v = n.isBlocked v := by
  obtain ⟨_, _, _, _, rfl⟩ := addEdge_ok added
  unfold isBlocked vertex?
  dsimp only
  rw [get?_listEdge]
  cases n.vertices.get? v with
  | none => rfl
  | some w => by_cases leaves : e.Leaves v <;> simp [leaves, Vertex.leave]

theorem isBlocked_withEnds (n : Network) (c : Connection) (v : FeatureId) :
    (n.withEnds c).isBlocked v = n.isBlocked v := by
  rw [withEnds, isBlocked_addVertex, isBlocked_addVertex]

theorem isBlocked_push (i : Intake) (c : Connection) (v : FeatureId) :
    (i.push c).network.isBlocked v = i.network.isBlocked v := by
  rcases network_push i c with ⟨m, added, same⟩ | same
  · rw [same, isBlocked_addEdge added, isBlocked_withEnds]
  · rw [same, isBlocked_withEnds]

/-- A network taken in blocks nothing. -/
theorem isBlocked_ofConnections (connections : List Connection) (v : FeatureId) :
    (ofConnections connections).1.isBlocked v = false := by
  suffices general : ∀ i : Intake, (i.extend connections).network.isBlocked v = i.network.isBlocked v by
    show (Intake.start.extend connections).network.isBlocked v = false
    rw [general]
    rfl
  unfold Intake.extend
  induction connections with
  | nil => exact fun _ => rfl
  | cons c rest ih =>
    intro i
    rw [List.foldl_cons, ih, isBlocked_push]

theorem blockedVertices_ascending (n : Network) : n.blockedVertices.Pairwise (· < ·) :=
  List.pairwise_map.mpr (n.vertices.ascending.filter _)

/-- The blocked vertices in ascending order, if they are those of a set that the network has. -/
theorem blockedVertices_eq {ids : IdSet}
    (same : ∀ id, n.isBlocked id = true ↔ id ∈ ids ∧ n.containsVertex id = true) :
    n.blockedVertices = ids.toList.filter n.containsVertex := by
  have ascending := ids.toList_ascending.filter n.containsVertex
  refine n.blockedVertices_ascending.eq_of_mem_iff ascending fun id => ?_
  rw [mem_blockedVertices, same, List.mem_filter, IdSet.mem_toList]

theorem blockedVertices_congr (same : ∀ v, n.isBlocked v = m.isBlocked v) :
    n.blockedVertices = m.blockedVertices := by
  refine n.blockedVertices_ascending.eq_of_mem_iff m.blockedVertices_ascending fun v => ?_
  rw [mem_blockedVertices, mem_blockedVertices, same]

theorem checkBlock_eq (n : Network) (id : FeatureId) :
    n.checkBlock id =
      if n.containsVertex id = false then .error (.vertexNotFound id)
      else if n.isBlocked id = true then .error (.alreadyBlocked id)
      else .ok () := by
  unfold checkBlock
  rw [containsVertex_eq, isBlocked]
  cases n.vertex? id <;> simp

theorem checkUnblock_eq (n : Network) (id : FeatureId) :
    n.checkUnblock id =
      if n.containsVertex id = false then .error (.vertexNotFound id)
      else if n.isBlocked id = false then .error (.notBlocked id)
      else .ok () := by
  unfold checkUnblock
  rw [containsVertex_eq, isBlocked]
  cases n.vertex? id with
  | none => rfl
  | some w => cases blocked : w.blocked <;> simp [blocked]

theorem containsVertex_of_checkBlock (checked : n.checkBlock id = .ok ()) : n.containsVertex id = true := by
  rw [checkBlock_eq] at checked
  split at checked
  · cases checked
  · next known => exact Bool.eq_true_of_not_eq_false known

theorem containsVertex_of_checkUnblock (checked : n.checkUnblock id = .ok ()) :
    n.containsVertex id = true := by
  rw [checkUnblock_eq] at checked
  split at checked
  · cases checked
  · next known => exact Bool.eq_true_of_not_eq_false known

/-- A vertex whose flag is set, whichever way, is one that was blocked or unblocked, or left as it was. -/
theorem Built.setBlocked (built : n.Built) (known : n.containsVertex id = true) (blocked : Bool) :
    (n.setBlocked id blocked).Built := by
  obtain ⟨w, found⟩ := Option.isSome_iff_exists.mp (containsVertex_eq n id ▸ known)
  by_cases same : w.blocked = blocked
  · have vertices : (n.setBlocked id blocked).vertices = n.vertices := by
      refine IdMap.ext_get? fun v => ?_
      change (n.setBlocked id blocked).vertex? v = n.vertex? v
      rw [vertex?_setBlocked]
      by_cases own : v = id
      · rw [own, found, Option.map_some, if_pos rfl, ← same]
      · simp [own]
    have idle : n.setBlocked id blocked = n := congrArg (mk · n.edges) vertices
    rwa [idle]
  · cases blocked with
    | true => exact built.block (block_ok_iff.mpr ⟨⟨w, found, by simpa using same⟩, rfl⟩)
    | false => exact built.unblock (unblock_ok_iff.mpr ⟨⟨w, found, by simpa using same⟩, rfl⟩)

/-- What becomes of one id that is restored: it is blocked now, or it was before, or the network lacks it. -/
theorem restore_cons (strict : Bool) (id : FeatureId) (rest : List FeatureId) (n : Network) :
    (n.containsVertex id = true ∧ n.isBlocked id = false ∧
        Session.restore strict (id :: rest) n = Session.restore strict rest (n.setBlocked id true)) ∨
      (n.containsVertex id = true ∧ n.isBlocked id = true ∧
        Session.restore strict (id :: rest) n = Session.restore strict rest n) ∨
      n.containsVertex id = false ∧ Session.restore strict (id :: rest) n =
        if strict then .error (.vertexNotFound id) else Session.restore strict rest n := by
  rw [Session.restore]
  unfold block checkBlock isBlocked
  rw [containsVertex_eq]
  cases found : n.vertex? id with
  | none => exact .inr (.inr ⟨rfl, rfl⟩)
  | some w =>
    obtain ⟨blocked, outgoing⟩ := w
    cases blocked with
    | false => exact .inl ⟨rfl, rfl, rfl⟩
    | true => exact .inr (.inl ⟨rfl, rfl, rfl⟩)

/-- Restoring blocks the ids that the network has, and leaves the others blocked that were. -/
theorem restore_ok {strict : Bool} {ids : List FeatureId}
    (restored : Session.restore strict ids n = .ok m) :
    (∀ v, m.containsVertex v = n.containsVertex v) ∧
      ∀ v, m.isBlocked v = true ↔ n.isBlocked v = true ∨ v ∈ ids ∧ n.containsVertex v = true := by
  induction ids generalizing n with
  | nil =>
    cases restored
    exact ⟨fun _ => rfl, fun v => by simp⟩
  | cons id rest ih =>
    -- Whatever becomes of one id, the rest is restored on a network where it is blocked if it is known.
    have onward {n' : Network} (restored : Session.restore strict rest n' = .ok m)
        (kept : ∀ v, n'.containsVertex v = n.containsVertex v)
        (one : ∀ v, n'.isBlocked v = true ↔
          n.isBlocked v = true ∨ v = id ∧ n.containsVertex v = true) :
        (∀ v, m.containsVertex v = n.containsVertex v) ∧
          ∀ v, m.isBlocked v = true ↔
            n.isBlocked v = true ∨ v ∈ id :: rest ∧ n.containsVertex v = true := by
      obtain ⟨contains, blocked⟩ := ih restored
      refine ⟨fun v => (contains v).trans (kept v), fun v => ?_⟩
      rw [blocked, one, kept, List.mem_cons, or_and_right, or_assoc]
    rcases restore_cons strict id rest n with ⟨known, _, same⟩ | ⟨_, before, same⟩ | ⟨unknown, same⟩
    · rw [same] at restored
      refine onward restored (fun v => containsVertex_setBlocked ..) fun v => ?_
      rw [isBlocked_setBlocked known]
      by_cases own : v = id
      · subst own
        simp [known]
      · simp [own]
    · rw [same] at restored
      refine onward restored (fun _ => rfl) fun v => ⟨.inl, fun either => ?_⟩
      rcases either with old | ⟨rfl, _⟩
      · exact old
      · exact before
    · rw [same] at restored
      split at restored
      · cases restored
      · refine onward restored (fun _ => rfl) fun v => ⟨.inl, fun either => ?_⟩
        rcases either with old | ⟨rfl, known⟩
        · exact old
        · rw [unknown] at known
          cases known

theorem Built.restore {strict : Bool} {ids : List FeatureId} (built : n.Built)
    (restored : Session.restore strict ids n = .ok m) : m.Built := by
  induction ids generalizing n with
  | nil =>
    cases restored
    exact built
  | cons id rest ih =>
    rcases restore_cons strict id rest n with ⟨known, _, same⟩ | ⟨_, _, same⟩ | ⟨_, same⟩
    · exact ih (built.setBlocked known true) (same ▸ restored)
    · exact ih built (same ▸ restored)
    · rw [same] at restored
      split at restored
      · cases restored
      · exact ih built restored

/-- Blocks vertices one after another; one that is unknown, or blocked already, is left alone. -/
def blockEach (n : Network) (ids : List FeatureId) : Network :=
  ids.foldl (fun n id => (n.block id).toOption.getD n) n

/-- Blocking one vertex, or leaving it alone. -/
theorem block_getD (n : Network) (id : FeatureId) :
    (n.block id).toOption.getD n = n.setBlocked id true ∧ n.containsVertex id = true ∨
      (n.block id).toOption.getD n = n ∧ (n.isBlocked id = true ∨ n.containsVertex id = false) := by
  cases done : n.block id with
  | ok m =>
    obtain ⟨⟨w, found, _⟩, rfl⟩ := block_ok_iff.mp done
    exact .inl ⟨rfl, by rw [containsVertex_eq, found, Option.isSome_some]⟩
  | error error =>
    refine .inr ⟨rfl, ?_⟩
    cases found : n.vertex? id with
    | none => exact .inr (by rw [containsVertex_eq, found, Option.isSome_none])
    | some w =>
      refine .inl ?_
      cases blocked : w.blocked with
      | true => rw [isBlocked, found, Option.map_some, blocked, Option.getD_some]
      | false => cases done.symm.trans (block_ok_iff.mpr ⟨⟨w, found, blocked⟩, rfl⟩)

theorem Built.blockEach (built : n.Built) (ids : List FeatureId) : (n.blockEach ids).Built := by
  unfold Network.blockEach
  induction ids generalizing n with
  | nil => exact built
  | cons id ids ih =>
    refine ih (show ((n.block id).toOption.getD n).Built from ?_)
    cases done : n.block id with
    | ok m => exact built.block done
    | error _ => exact built

theorem blockEach_same (n : Network) (ids : List FeatureId) :
    (∀ v, (n.blockEach ids).containsVertex v = n.containsVertex v) ∧
      (∀ v, (n.blockEach ids).outgoing v = n.outgoing v) ∧
        ∀ id, (n.blockEach ids).edge? id = n.edge? id := by
  unfold blockEach
  induction ids generalizing n with
  | nil => exact ⟨fun _ => rfl, fun _ => rfl, fun _ => rfl⟩
  | cons id ids ih =>
    obtain ⟨contains, outgoing, edges⟩ := ih ((n.block id).toOption.getD n)
    rw [List.foldl_cons]
    rcases n.block_getD id with ⟨same, _⟩ | ⟨same, _⟩
    · rw [same] at contains outgoing edges ⊢
      exact ⟨fun v => (contains v).trans (containsVertex_setBlocked ..),
        fun v => (outgoing v).trans (outgoing_setBlocked ..), edges⟩
    · rw [same] at contains outgoing edges ⊢
      exact ⟨contains, outgoing, edges⟩

theorem isBlocked_blockEach (n : Network) (ids : List FeatureId) (v : FeatureId) :
    (n.blockEach ids).isBlocked v = true ↔
      n.isBlocked v = true ∨ v ∈ ids ∧ n.containsVertex v = true := by
  unfold blockEach
  induction ids generalizing n with
  | nil => simp
  | cons id ids ih =>
    rw [List.foldl_cons, ih, List.mem_cons]
    rcases n.block_getD id with ⟨same, known⟩ | ⟨same, kept⟩
    · rw [same, isBlocked_setBlocked known, containsVertex_setBlocked]
      by_cases own : v = id
      · subst own
        simp [known]
      · simp [own]
    · rw [same, or_and_right, ← or_assoc]
      refine or_congr_left ⟨.inl, fun either => either.elim (fun before => before) fun ⟨own, known⟩ => ?_⟩
      subst own
      exact kept.resolve_right (by simp [known])

end Network

end FeatureNet
