import FeatureNet.Network.Fingerprint
import FeatureNet.Proofs.IntakeAccounts
import FeatureNet.Proofs.MatchedMaps

namespace FeatureNet

open Network

/-- The same connections in another order, in which those of one connector come as they did. -/
structure Reordered (given other : List Connection) : Prop where
  perm : given.Perm other
  kept (connector) : given.filter (·.connector = connector) = other.filter (·.connector = connector)

/-- Only the connectors that there are have to be looked at. -/
instance (given other : List Connection) : Decidable (Reordered given other) :=
  decidable_of_iff (given.Perm other ∧
      ∀ c ∈ given, given.filter (·.connector = c.connector) = other.filter (·.connector = c.connector)) <| by
    refine ⟨fun ⟨perm, kept⟩ => ⟨perm, fun connector => ?_⟩, fun r => ⟨r.perm, fun c _ => r.kept c.connector⟩⟩
    by_cases used : ∃ c ∈ given, c.connector = connector
    · obtain ⟨c, member, rfl⟩ := used
      exact kept c member
    · have unused (c : Connection) (member : c ∈ given) : c.connector ≠ connector :=
        fun same => used ⟨c, member, same⟩
      rw [List.filter_eq_nil_iff.mpr (by simpa using unused), List.filter_eq_nil_iff.mpr]
      intro c member
      simpa using unused c (perm.mem_iff.mpr member)

/-- The connection that becomes the edge of a connector: the first one whose cost is a cost. -/
def firstPriced? (connections : List Connection) (connector : FeatureId) : Option Connection :=
  connections.find? fun c => c.connector = connector ∧ c.Priced

theorem Reordered.firstPriced?_eq {given other : List Connection} (reordered : Reordered given other)
    (connector : FeatureId) : firstPriced? given connector = firstPriced? other connector := by
  have filtered (connections : List Connection) : firstPriced? connections connector =
      (connections.filter (·.connector = connector)).find? (·.Priced) := by
    simp only [firstPriced?, List.find?_filter, decide_eq_true_eq]
  rw [filtered, filtered, reordered.kept]

namespace Intake

variable {i : Intake} {connections : List Connection} {c : Connection}

/-- A connector is taken as soon as a connection of it has a cost. -/
theorem Tallies.taken_iff (tallies : i.Tallies connections) {index : Nat} {connector : FeatureId} :
    i.report.Taken connections index connector ↔
      ∃ j d, j < index ∧ connections[j]? = some d ∧ d.connector = connector ∧ d.Priced := by
  constructor
  · rintro ⟨j, d, earlier, found, kept, own⟩
    exact ⟨j, d, earlier, found, own, ((tallies.accepts found).mp kept).1⟩
  · rintro ⟨j, d, earlier, found, own, priced⟩
    by_cases refused : i.report.Refuses j
    · have taken := (tallies.accepts found).not.mp (not_not_intro refused)
      rw [not_and, not_not] at taken
      obtain ⟨j', d', earlier', rest⟩ := taken priced
      exact ⟨j', d', earlier'.trans earlier, rest.1, rest.2.1, rest.2.2.trans own⟩
    · exact ⟨j, d, earlier, found, refused, own⟩

theorem Tallies.mem_accepted_iff (tallies : i.Tallies connections) :
    c ∈ i.report.accepted connections ↔ firstPriced? connections c.connector = some c := by
  rw [Report.mem_accepted, firstPriced?, List.find?_eq_some_iff_getElem]
  constructor
  · rintro ⟨index, found, kept⟩
    obtain ⟨priced, free⟩ := (tallies.accepts found).mp kept
    obtain ⟨within, rfl⟩ := List.getElem?_eq_some_iff.mp found
    refine ⟨by simpa using priced, index, within, rfl, fun j earlier => ?_⟩
    rw [Bool.not_eq_true', decide_eq_false_iff_not]
    intro both
    exact free (tallies.taken_iff.mpr ⟨j, _, earlier, List.getElem?_eq_getElem _, both⟩)
  · rintro ⟨priced, index, within, rfl, before⟩
    have found : connections[index]? = some connections[index] := List.getElem?_eq_getElem within
    refine ⟨index, found, (tallies.accepts found).mpr ⟨by simpa using priced, fun taken => ?_⟩⟩
    obtain ⟨j, d, earlier, there, both⟩ := tallies.taken_iff.mp taken
    obtain ⟨within', rfl⟩ := List.getElem?_eq_some_iff.mp there
    have other := before j earlier
    rw [Bool.not_eq_true', decide_eq_false_iff_not] at other
    exact other both

/-- Every connection is either rejected or accepted. -/
theorem Tallies.perm_connections (tallies : i.Tallies connections) :
    (i.report.rejections.map (·.connection) ++ i.report.accepted connections).Perm connections := by
  have places : (i.report.rejections.map fun x => (x.connection, x.index)).Perm
      (connections.zipIdx.filter fun entry => i.report.Refuses entry.2) := by
    have distinct : (i.report.rejections.map fun x => (x.connection, x.index)).Nodup :=
      List.pairwise_map.mpr (tallies.ascending.imp fun earlier same => earlier.ne (Prod.mk.inj same).2)
    have numbered : connections.zipIdx.Nodup := by
      refine .of_map Prod.snd ?_
      rw [List.zipIdx_map_snd]
      exact List.nodup_range'
    refine (List.perm_ext_iff_of_nodup distinct (numbered.filter _)).mpr fun ⟨c, index⟩ => ?_
    rw [List.mem_map, List.mem_filter, List.mem_zipIdx_iff_getElem?, decide_eq_true_iff]
    constructor
    · rintro ⟨x, member, same⟩
      cases same
      exact ⟨(tallies.rejected member).1, x, member, rfl⟩
    · rintro ⟨found, x, member, rfl⟩
      obtain ⟨own, _⟩ := tallies.rejected member
      rw [found] at own
      exact ⟨x, member, Prod.ext (Option.some.inj own).symm rfl⟩
  have both := (places.append_right _).trans
    (List.filter_append_perm (fun entry => i.report.Refuses entry.2) connections.zipIdx)
  have parts := both.map Prod.fst
  rw [List.map_append, List.map_map, List.zipIdx_map_fst] at parts
  unfold Report.accepted
  simpa only [decide_not, Function.comp_def] using parts

variable {given other : List Connection}

theorem Follows.nodup_accepted (follows : i.Follows connections) : (i.report.accepted connections).Nodup := by
  have distinct := follows.holds.grown.lists.nodup
  exact (distinct.of_map _).of_map _

/-- The same connections are accepted, if those of one connector come in the same order. -/
theorem perm_accepted (reordered : Reordered given other) :
    ((start.extend given).report.accepted given).Perm ((start.extend other).report.accepted other) := by
  have follows := follows_extend given
  have follows' := follows_extend other
  refine (List.perm_ext_iff_of_nodup follows.nodup_accepted follows'.nodup_accepted).mpr fun c => ?_
  rw [follows.mem_accepted_iff, follows'.mem_accepted_iff, reordered.firstPriced?_eq]

/-- So the same ones are rejected, -/
theorem perm_rejected (reordered : Reordered given other) :
    ((start.extend given).report.rejections.map (·.connection)).Perm
      ((start.extend other).report.rejections.map (·.connection)) := by
  have whole := (follows_extend given).perm_connections
  have whole' := (follows_extend other).perm_connections
  have both := (whole.trans reordered.perm).trans whole'.symm
  exact (List.perm_append_right_iff _).mp (both.trans ((perm_accepted reordered).symm.append_left _))

/-- and for the same faults. -/
theorem Tallies.map_error (tallies : i.Tallies connections) :
    i.report.rejections.map (fun x => (x.connection, x.error)) =
      (i.report.rejections.map (·.connection)).map fun c => (c, c.fault) := by
  rw [List.map_map]
  refine List.map_congr_left fun x member => ?_
  rw [(tallies.rejected member).2]
  rfl

end Intake

namespace Network

variable {n m : Network}

/-- Networks that differ in nothing but the order in which edges are listed. -/
structure Relisted (n m : Network) : Prop where
  vertices : n.vertices.keys = m.vertices.keys
  blocked : n.blockedVertices = m.blockedVertices
  edges : n.edges = m.edges
  outgoing (v) : (n.outgoing v).Perm (m.outgoing v)

theorem relisted_of_same (vertices : ∀ v, n.containsVertex v = m.containsVertex v)
    (blocked : ∀ v, n.isBlocked v = m.isBlocked v) (edges : ∀ id, n.edge? id = m.edge? id)
    (outgoing : ∀ v, (n.outgoing v).Perm (m.outgoing v)) : n.Relisted m where
  vertices := IdMap.keys_congr vertices
  blocked := blockedVertices_congr blocked
  edges := IdMap.ext_get? edges
  outgoing := outgoing

theorem Relisted.containsVertex (relisted : n.Relisted m) (v : FeatureId) :
    n.containsVertex v = m.containsVertex v := by
  rw [Bool.eq_iff_iff]
  unfold Network.containsVertex
  rw [IdMap.contains_iff_mem_keys, IdMap.contains_iff_mem_keys, relisted.vertices]

theorem Relisted.isBlocked (relisted : n.Relisted m) (v : FeatureId) : n.isBlocked v = m.isBlocked v := by
  rw [Bool.eq_iff_iff, ← mem_blockedVertices, ← mem_blockedVertices, relisted.blocked]

theorem Relisted.checkBlock (relisted : n.Relisted m) (id : FeatureId) : n.checkBlock id = m.checkBlock id := by
  rw [checkBlock_eq, checkBlock_eq, relisted.containsVertex, relisted.isBlocked]

/-- Blocking takes no notice of the lists. -/
theorem Relisted.blockEach (relisted : n.Relisted m) (ids : List FeatureId) :
    (n.blockEach ids).Relisted (m.blockEach ids) := by
  obtain ⟨vertices, outgoing, edges⟩ := n.blockEach_same ids
  obtain ⟨vertices', outgoing', edges'⟩ := m.blockEach_same ids
  refine relisted_of_same (fun v => ?_) (fun v => ?_) (fun id => ?_) fun v => ?_
  · rw [vertices, vertices', relisted.containsVertex]
  · rw [Bool.eq_iff_iff, isBlocked_blockEach, isBlocked_blockEach, relisted.isBlocked, relisted.containsVertex]
  · rw [edges, edges', edge?, edge?, relisted.edges]
  · rw [outgoing, outgoing']
    exact relisted.outgoing v

theorem Relisted.size (relisted : n.Relisted m) : n.vertices.size = m.vertices.size :=
  IdMap.size_congr relisted.vertices

/-- Nor does the fingerprint. -/
theorem Relisted.fingerprint (relisted : n.Relisted m) : n.fingerprint = m.fingerprint := by
  unfold Network.fingerprint vertexListing topologyListing costListing blockedListing
  rw [relisted.vertices, relisted.edges, relisted.blocked, relisted.size]

theorem relisted_of_reordered {given other : List Connection} (reordered : Reordered given other) :
    (ofConnections given).1.Relisted (ofConnections other).1 := by
  have follows := Intake.follows_extend given
  have follows' := Intake.follows_extend other
  have accepted := (Intake.perm_accepted reordered).map (·.edge)
  refine relisted_of_same (fun v => ?_) (fun v => ?_) (fun id => ?_) fun v => ?_
  · rw [Bool.eq_iff_iff]
    refine follows.vertices.trans (.trans ?_ follows'.vertices.symm)
    simp only [reordered.perm.mem_iff]
  · exact (follows.free v).trans (follows'.free v).symm
  · refine Option.ext fun e => ?_
    exact (follows.holds.edges.trans (and_congr_left' accepted.mem_iff)).trans follows'.holds.edges.symm
  · have listed := (accepted.filter (·.Leaves v)).map (·.id)
    rwa [← follows.holds.outgoing, ← follows'.holds.outgoing] at listed

/-- Connections taken in in another order give the same vertices and the same edges, listed in another order,
and a report of the same counts and the same rejections. Whatever is then blocked goes alike on both networks,
and both have one fingerprint. -/
theorem reordered_same {given other : List Connection} (reordered : Reordered given other) :
    (ofConnections given).1.Relisted (ofConnections other).1 ∧
      ((ofConnections given).2.read = (ofConnections other).2.read ∧
        (ofConnections given).2.verticesAdded = (ofConnections other).2.verticesAdded ∧
        (ofConnections given).2.edgesAdded = (ofConnections other).2.edgesAdded ∧
        ((ofConnections given).2.rejections.map fun x => (x.connection, x.error)).Perm
          ((ofConnections other).2.rejections.map fun x => (x.connection, x.error))) ∧
      ∀ ids,
        (∀ id, ((ofConnections given).1.blockEach ids).checkBlock id =
          ((ofConnections other).1.blockEach ids).checkBlock id) ∧
        ((ofConnections given).1.blockEach ids).fingerprint =
          ((ofConnections other).1.blockEach ids).fingerprint := by
  have relisted := relisted_of_reordered reordered
  have follows := Intake.follows_extend given
  have follows' := Intake.follows_extend other
  have rejected := (Intake.perm_rejected reordered).map fun c => (c, c.fault)
  rw [← follows.map_error, ← follows'.map_error] at rejected
  refine ⟨relisted, ⟨?_, ?_, ?_, rejected⟩, fun ids => ⟨?_, ?_⟩⟩
  · exact follows.read.trans (reordered.perm.length_eq.trans follows'.read.symm)
  · exact follows.verticesAdded.trans (relisted.size.trans follows'.verticesAdded.symm)
  · exact follows.edgesAdded.trans ((congrArg IdMap.size relisted.edges).trans follows'.edgesAdded.symm)
  · exact (relisted.blockEach ids).checkBlock
  · exact (relisted.blockEach ids).fingerprint

/-- A connector used twice, one whose first cost is below zero, and a loop. -/
def consignment : List Connection :=
  [.bidirectional 1 2 100 (.ofInt 1), .bidirectional 2 3 100 (.ofInt 5), .directed 3 4 102 (.ofInt (-2)),
    ⟨6, 7, 102, .targetToSource, .ofInt 4, .ofInt 7⟩, .bidirectional 1 7 104 (.ofInt 3),
    .bidirectional 5 5 103 .zero, .directed 8 8 103 .nan]

/-- The same from the other end, but for the order at each connector. -/
def returned : List Connection :=
  [.bidirectional 5 5 103 .zero, .directed 8 8 103 .nan, .bidirectional 1 7 104 (.ofInt 3),
    .directed 3 4 102 (.ofInt (-2)), ⟨6, 7, 102, .targetToSource, .ofInt 4, .ofInt 7⟩,
    .bidirectional 1 2 100 (.ofInt 1), .bidirectional 2 3 100 (.ofInt 5)]

/-- Two edges change places at the first vertex and the rejections get other indices, and that is all. -/
theorem reordered_same_returned :
    Reordered consignment returned ∧
      (ofConnections consignment).1.outgoing 1 = [100, 104] ∧
      (ofConnections returned).1.outgoing 1 = [104, 100] ∧
      (ofConnections consignment).2.rejections.map (·.index) = [1, 2, 6] ∧
      (ofConnections returned).2.rejections.map (·.index) = [1, 3, 6] ∧
      (ofConnections consignment).1.edges = (ofConnections returned).1.edges ∧
      ((ofConnections consignment).1.blockEach [7, 9, 7]).fingerprint =
        ((ofConnections returned).1.blockEach [7, 9, 7]).fingerprint := by
  have reordered : Reordered consignment returned := by decide +kernel
  obtain ⟨relisted, _, blocked⟩ := reordered_same reordered
  exact ⟨reordered, by decide +kernel, by decide +kernel, by decide +kernel, by decide +kernel, relisted.edges,
    (blocked [7, 9, 7]).2⟩

end Network

end FeatureNet
