import FeatureNet.Proofs.BlockedVertices
import FeatureNet.Proofs.OrderlyNetworks

namespace FeatureNet

open Network

namespace Connection

/-- The end from which a connection is travelled, and the one to which. -/
def ends (c : Connection) : FeatureId × FeatureId :=
  match c.direction with
  | .targetToSource => (c.target, c.source)
  | .bidirectional | .sourceToTarget => (c.source, c.target)

/-- The vertices that a connection can be travelled from. -/
def Departs (c : Connection) (v : FeatureId) : Prop :=
  v = c.ends.1 ∨ c.direction = .bidirectional ∧ (v = c.source ∨ v = c.target)

instance (c : Connection) (v : FeatureId) : Decidable (c.Departs v) :=
  inferInstanceAs (Decidable (v = c.ends.1 ∨ _))

/-- The cost is a number from zero on, infinity too. -/
def Priced (c : Connection) : Prop := c.cost.isNaN = false ∧ ¬c.cost < Binary64.zero

instance (c : Connection) : Decidable c.Priced := inferInstanceAs (Decidable (_ ∧ _))

/-- Why a connection gives no edge, if it gives none. A bad cost goes before a repeated id. -/
def fault (c : Connection) : NetworkError :=
  if c.Priced then .duplicateEdge c.connector else .invalidCost c.connector c.cost

theorem priced_iff {c : Connection} : c.Priced ↔ isCost c.cost = true := by simp [Priced, isCost]

theorem edge_eq (c : Connection) :
    c.edge = ⟨c.connector, c.ends.1, c.ends.2, c.direction = .bidirectional, c.cost, c.inverseCost⟩ := by
  unfold edge ends
  cases c.direction <;> rfl

theorem leaves_edge {c : Connection} {v : FeatureId} : c.edge.Leaves v ↔ c.Departs v := by
  rw [edge_eq]
  unfold Edge.Leaves Departs ends
  cases c.direction <;> simp

end Connection

namespace Report

variable {r s : Report} {connections : List Connection}

/-- A rejection is reported of the connection at an index. -/
def Refuses (r : Report) (index : Nat) : Prop := ∃ x ∈ r.rejections, x.index = index

instance (r : Report) (index : Nat) : Decidable (r.Refuses index) :=
  inferInstanceAs (Decidable (∃ x ∈ r.rejections, x.index = index))

/-- The connections of which no rejection is reported, in their order. -/
def accepted (r : Report) (connections : List Connection) : List Connection :=
  (connections.zipIdx.filter fun entry => ¬r.Refuses entry.2).map (·.1)

theorem mem_accepted {c : Connection} :
    c ∈ r.accepted connections ↔ ∃ index, connections[index]? = some c ∧ ¬r.Refuses index := by
  simp only [accepted, List.mem_map, List.mem_filter, List.mem_zipIdx_iff_getElem?, decide_eq_true_iff, Prod.exists,
    exists_and_right, exists_eq_right]

/-- One more connection is accepted last, or not at all. -/
theorem accepted_concat (same : ∀ index < connections.length, s.Refuses index ↔ r.Refuses index)
    (c : Connection) :
    s.accepted (connections ++ [c]) =
      r.accepted connections ++ if s.Refuses connections.length then [] else [c] := by
  have before : connections.zipIdx.filter (fun entry => ¬s.Refuses entry.2) =
      connections.zipIdx.filter fun entry => ¬r.Refuses entry.2 := by
    refine List.filter_congr fun entry member => ?_
    have found := List.mem_zipIdx_iff_getElem?.mp member
    exact decide_eq_decide.mpr (not_congr (same entry.2 (List.getElem?_eq_some_iff.mp found).1))
  rw [accepted, List.zipIdx_append, List.filter_append, before, List.map_append]
  refine congrArg _ ?_
  by_cases refused : s.Refuses connections.length <;> simp [refused]

/-- Whether a connection accepted before some index has a connector. -/
def Taken (r : Report) (connections : List Connection) (index : Nat) (connector : FeatureId) : Prop :=
  ∃ j d, j < index ∧ connections[j]? = some d ∧ ¬r.Refuses j ∧ d.connector = connector

theorem taken_concat (same : ∀ index < connections.length, s.Refuses index ↔ r.Refuses index)
    {index : Nat} (within : index ≤ connections.length) (c : Connection) (connector : FeatureId) :
    s.Taken (connections ++ [c]) index connector ↔ r.Taken connections index connector := by
  refine exists_congr fun j => exists_congr fun d => and_congr_right fun earlier => ?_
  have early : j < connections.length := Nat.lt_of_lt_of_le earlier within
  rw [List.getElem?_append_left early, same j early]

end Report

namespace Network

variable {n m : Network}

theorem size_addVertex (n : Network) (id : FeatureId) :
    (n.addVertex id).vertices.size =
      if n.containsVertex id then n.vertices.size else n.vertices.size + 1 := by
  unfold addVertex
  split
  · rfl
  · next unknown => exact IdMap.size_insert (by simpa [containsVertex, IdMap.contains] using unknown) _

theorem size_addEdge {e : Edge} (added : n.addEdge e = .ok m) :
    m.vertices.size = n.vertices.size ∧ m.edges.size = n.edges.size + 1 := by
  obtain ⟨unknown, _, _, _, rfl⟩ := addEdge_ok added
  refine ⟨?_, IdMap.size_insert unknown e⟩
  dsimp only [listEdge]
  split
  · rw [IdMap.size_modify, IdMap.size_modify]
  · rw [IdMap.size_modify]

theorem containsVertex_withEnds {c : Connection} {v : FeatureId} :
    (n.withEnds c).containsVertex v = true ↔ n.containsVertex v = true ∨ v = c.source ∨ v = c.target := by
  rw [withEnds, containsVertex_addVertex, containsVertex_addVertex]
  by_cases source : v = c.source <;> by_cases target : v = c.target <;> simp [source, target]

theorem edges_withEnds (n : Network) (c : Connection) : (n.withEnds c).edges = n.edges := by
  rw [withEnds, edges_addVertex, edges_addVertex]

theorem edge?_withEnds (n : Network) (c : Connection) (id : FeatureId) :
    (n.withEnds c).edge? id = n.edge? id := by
  rw [edge?, edges_withEnds, edge?]

theorem Holds.withEnds {accepted : List Edge} (holds : n.Holds accepted) (c : Connection) :
    (n.withEnds c).Holds accepted := (holds.addVertex c.source).addVertex c.target

/-- Among vertices that exist, a connection is refused for its cost or for its connector and nothing else. -/
theorem addConnection_cases {c : Connection} (source : n.containsVertex c.source = true)
    (target : n.containsVertex c.target = true) :
    (c.Priced ∧ n.edge? c.connector = none) ∧
        (∃ m, n.addEdge c.edge = .ok m ∧ Intake.addConnection n c = .ok m) ∨
      ¬(c.Priced ∧ n.edge? c.connector = none) ∧ Intake.addConnection n c = .error c.fault := by
  unfold Intake.addConnection Connection.fault
  by_cases priced : c.Priced
  · have cost := Connection.priced_iff.mp priced
    rw [if_pos cost, if_pos priced]
    by_cases unknown : n.edge? c.connector = none
    · have ends : n.containsVertex c.edge.source = true ∧ n.containsVertex c.edge.target = true := by
        rw [c.edge_eq]
        unfold Connection.ends
        cases c.direction <;> exact ⟨‹_›, ‹_›⟩
      obtain ⟨m, added⟩ := exists_addEdge (e := c.edge) unknown cost ends.1 ends.2
      exact .inl ⟨⟨priced, unknown⟩, m, added, added⟩
    · have known : n.containsEdge c.edge.id = true := Option.isSome_iff_ne_none.mpr unknown
      refine .inr ⟨fun both => unknown both.2, ?_⟩
      rw [addEdge, if_pos known]
      rfl
  · have cost := Connection.priced_iff.not.mp priced
    rw [if_neg cost, if_neg priced]
    exact .inr ⟨fun both => priced both.1, rfl⟩

end Network

namespace Intake

/-- Connections taken in at once: one of them, or one after another. -/
inductive Batch
  | one (c : Connection)
  | many (connections : List Connection)

def Batch.connections : Batch → List Connection
  | one c => [c]
  | many connections => connections

def take (i : Intake) : Batch → Intake
  | .one c => i.push c
  | .many connections => i.extend connections

/-- The intake of batches, one after another. -/
def ofBatches (batches : List Batch) : Intake := batches.foldl take .start

variable {i : Intake} {connections : List Connection}

theorem addVertex_eq {n : Network} {r : Report} (counted : r.verticesAdded = n.vertices.size)
    (id : FeatureId) :
    (⟨n, r⟩ : Intake).addVertex id =
      ⟨n.addVertex id, { r with verticesAdded := (n.addVertex id).vertices.size }⟩ := by
  rw [size_addVertex, ← counted]
  unfold addVertex Network.addVertex
  split <;> rfl

theorem addEnds_eq {n : Network} {r : Report} (counted : r.verticesAdded = n.vertices.size)
    (c : Connection) :
    ((⟨n, r⟩ : Intake).addVertex c.source).addVertex c.target =
      ⟨n.withEnds c, { r with verticesAdded := (n.withEnds c).vertices.size }⟩ := by
  rw [addVertex_eq counted, addVertex_eq rfl]
  rfl

/-- What one connection does: it becomes an edge, or it is rejected with its index and its fault. -/
theorem push_cases (counted : i.report.verticesAdded = i.network.vertices.size) (c : Connection) :
    (c.Priced ∧ i.network.edge? c.connector = none) ∧
        (∃ m, (i.network.withEnds c).addEdge c.edge = .ok m ∧
          i.push c = ⟨m, i.report.read + 1, m.vertices.size, i.report.edgesAdded + 1, i.report.rejections⟩) ∨
      ¬(c.Priced ∧ i.network.edge? c.connector = none) ∧
        i.push c = ⟨i.network.withEnds c, i.report.read + 1, (i.network.withEnds c).vertices.size,
          i.report.edgesAdded, i.report.rejections ++ [⟨i.report.read, c, c.fault⟩]⟩ := by
  have source : (i.network.withEnds c).containsVertex c.source = true :=
    containsVertex_withEnds.mpr (.inr (.inl rfl))
  have target : (i.network.withEnds c).containsVertex c.target = true :=
    containsVertex_withEnds.mpr (.inr (.inr rfl))
  have cases := addConnection_cases source target
  rw [edge?_withEnds] at cases
  unfold push
  dsimp only
  rw [addEnds_eq (r := { i.report with read := i.report.read + 1 }) counted]
  dsimp only
  rcases cases with ⟨fit, m, added, done⟩ | ⟨unfit, done⟩
  · rw [done]
    exact .inl ⟨fit, m, added, by rw [(size_addEdge added).1]⟩
  · rw [done]
    exact .inr ⟨unfit, rfl⟩

/-- The books on the connections taken in so far. -/
structure Tallies (i : Intake) (connections : List Connection) : Prop where
  accepts {index c} : connections[index]? = some c →
    (¬i.report.Refuses index ↔ c.Priced ∧ ¬i.report.Taken connections index c.connector)
  vertices {v} : i.network.containsVertex v = true ↔ ∃ c ∈ connections, v = c.source ∨ v = c.target
  free (v) : i.network.isBlocked v = false
  read : i.report.read = connections.length
  verticesAdded : i.report.verticesAdded = i.network.vertices.size
  edgesAdded : i.report.edgesAdded = i.network.edges.size
  total : i.report.edgesAdded + i.report.rejections.length = connections.length
  ascending : i.report.rejections.Pairwise (·.index < ·.index)
  rejected {x} : x ∈ i.report.rejections →
    connections[x.index]? = some x.connection ∧ x.error = x.connection.fault

/-- The books, and the network with the edges of the connections accepted so far. -/
structure Follows (i : Intake) (connections : List Connection) : Prop extends i.Tallies connections where
  holds : i.network.Holds ((i.report.accepted connections).map (·.edge))

theorem follows_start : start.Follows [] where
  accepts found := by simp at found
  vertices := by simp [start, Network.empty, containsVertex, IdMap.contains]
  free _ := rfl
  read := rfl
  verticesAdded := rfl
  edgesAdded := rfl
  total := rfl
  ascending := .nil
  rejected member := nomatch member
  holds := holds_empty

theorem Tallies.index_lt (tallies : i.Tallies connections) {x : Rejection} (member : x ∈ i.report.rejections) :
    x.index < connections.length := (List.getElem?_eq_some_iff.mp (tallies.rejected member).1).1

theorem Tallies.vertices_concat (tallies : i.Tallies connections) {c : Connection} {v : FeatureId} :
    (i.network.withEnds c).containsVertex v = true ↔
      ∃ d ∈ connections ++ [c], v = d.source ∨ v = d.target := by
  rw [containsVertex_withEnds, tallies.vertices]
  simp only [List.mem_append, List.mem_singleton, or_and_right, exists_or, exists_eq_left]

theorem Tallies.rejected_concat (tallies : i.Tallies connections) (c : Connection) {x : Rejection}
    (member : x ∈ i.report.rejections) :
    (connections ++ [c])[x.index]? = some x.connection ∧ x.error = x.connection.fault := by
  rw [List.getElem?_append_left (tallies.index_lt member)]
  exact tallies.rejected member

/-- A connector has no edge in the network as long as no connection that has it is accepted. -/
theorem Follows.unknown_iff (follows : i.Follows connections) {connector : FeatureId} :
    i.network.edge? connector = none ↔ ¬i.report.Taken connections connections.length connector := by
  rw [← not_iff_not, not_not, ← ne_eq, Option.ne_none_iff_exists']
  constructor
  · rintro ⟨e, found⟩
    obtain ⟨member, own⟩ := follows.holds.edges.mp found
    obtain ⟨d, accepted, rfl⟩ := List.mem_map.mp member
    obtain ⟨j, there, kept⟩ := Report.mem_accepted.mp accepted
    exact ⟨j, d, (List.getElem?_eq_some_iff.mp there).1, there, kept, own⟩
  · rintro ⟨j, d, _, there, kept, own⟩
    have accepted := Report.mem_accepted.mpr ⟨j, there, kept⟩
    exact ⟨d.edge, follows.holds.edges.mpr ⟨List.mem_map_of_mem accepted, own⟩⟩

/-- What one more connection decides about itself, and leaves as it was about those before. -/
theorem Follows.accepts_concat (follows : i.Follows connections) {r : Report} {c : Connection}
    (same : ∀ index < connections.length, r.Refuses index ↔ i.report.Refuses index)
    (last : ¬r.Refuses connections.length ↔ c.Priced ∧ i.network.edge? c.connector = none)
    {index : Nat} {d : Connection} (found : (connections ++ [c])[index]? = some d) :
    ¬r.Refuses index ↔ d.Priced ∧ ¬r.Taken (connections ++ [c]) index d.connector := by
  rcases Nat.lt_or_ge index connections.length with earlier | late
  · rw [List.getElem?_append_left earlier] at found
    rw [same index earlier, Report.taken_concat same earlier.le, follows.accepts found]
  · have within := (List.getElem?_eq_some_iff.mp found).1
    obtain rfl : index = connections.length := by
      rw [List.length_append, List.length_singleton] at within
      omega
    rw [List.getElem?_concat_length] at found
    obtain rfl := Option.some.inj found
    rw [last, Report.taken_concat same le_rfl, follows.unknown_iff]

theorem Tallies.not_refuses (tallies : i.Tallies connections) : ¬i.report.Refuses connections.length := by
  rintro ⟨x, member, own⟩
  exact Nat.ne_of_lt (tallies.index_lt member) own

/-- A connection that becomes an edge leaves the rejections as they are. -/
theorem Follows.accept (follows : i.Follows connections) {c : Connection} {m : Network}
    (fit : c.Priced ∧ i.network.edge? c.connector = none)
    (added : (i.network.withEnds c).addEdge c.edge = .ok m) :
    Follows ⟨m, i.report.read + 1, m.vertices.size, i.report.edgesAdded + 1, i.report.rejections⟩
      (connections ++ [c]) := by
  let r : Report := ⟨i.report.read + 1, m.vertices.size, i.report.edgesAdded + 1, i.report.rejections⟩
  have same (index : Nat) (_ : index < connections.length) : r.Refuses index ↔ i.report.Refuses index := .rfl
  have last : ¬r.Refuses connections.length := follows.not_refuses
  have holds := (follows.holds.withEnds c).addEdge added
  exact {
    accepts := follows.accepts_concat same (iff_of_true last fit)
    vertices := fun {v} => by rw [containsVertex_addEdge added, follows.vertices_concat]
    free := fun v => by rw [isBlocked_addEdge added, isBlocked_withEnds, follows.free]
    read := by rw [follows.read, List.length_append, List.length_singleton]
    verticesAdded := rfl
    edgesAdded := by rw [(size_addEdge added).2, edges_withEnds, follows.edgesAdded]
    total := by rw [Nat.add_right_comm, follows.total, List.length_append, List.length_singleton]
    ascending := follows.ascending
    rejected := follows.rejected_concat c
    holds := by rwa [Report.accepted_concat same, if_neg last, List.map_append] }

/-- A connection that becomes no edge is the last of the rejections, and its ends are vertices all the same. -/
theorem Follows.reject (follows : i.Follows connections) {c : Connection}
    (unfit : ¬(c.Priced ∧ i.network.edge? c.connector = none)) :
    Follows ⟨i.network.withEnds c, i.report.read + 1, (i.network.withEnds c).vertices.size, i.report.edgesAdded,
      i.report.rejections ++ [⟨i.report.read, c, c.fault⟩]⟩ (connections ++ [c]) := by
  let r : Report := ⟨i.report.read + 1, (i.network.withEnds c).vertices.size, i.report.edgesAdded,
    i.report.rejections ++ [⟨i.report.read, c, c.fault⟩]⟩
  have refuses (index : Nat) : r.Refuses index ↔ i.report.Refuses index ∨ connections.length = index := by
    simp only [r, Report.Refuses, List.mem_append, List.mem_singleton, or_and_right, exists_or, exists_eq_left,
      follows.read]
  have same (index : Nat) (earlier : index < connections.length) :
      r.Refuses index ↔ i.report.Refuses index := by
    rw [refuses, or_iff_left earlier.ne']
  have last : r.Refuses connections.length := (refuses _).mpr (.inr rfl)
  exact {
    accepts := follows.accepts_concat same (iff_of_false (not_not_intro last) unfit)
    vertices := follows.vertices_concat
    free := fun v => by rw [isBlocked_withEnds, follows.free]
    read := by rw [follows.read, List.length_append, List.length_singleton]
    verticesAdded := rfl
    edgesAdded := by rw [edges_withEnds, follows.edgesAdded]
    total := by
      rw [List.length_append, ← Nat.add_assoc, follows.total, List.length_append, List.length_singleton,
        List.length_singleton]
    ascending := by
      refine List.pairwise_append.mpr ⟨follows.ascending, List.pairwise_singleton .., fun x before y now => ?_⟩
      rw [List.mem_singleton.mp now, follows.read]
      exact follows.index_lt before
    rejected := by
      intro x member
      rcases List.mem_append.mp member with before | now
      · exact follows.rejected_concat c before
      · rw [List.mem_singleton.mp now, follows.read]
        exact ⟨List.getElem?_concat_length .., rfl⟩
    holds := by
      rw [Report.accepted_concat same, if_pos last, List.append_nil]
      exact follows.holds.withEnds c }

theorem Follows.push (follows : i.Follows connections) (c : Connection) :
    (i.push c).Follows (connections ++ [c]) := by
  rcases push_cases follows.verticesAdded c with ⟨fit, m, added, pushed⟩ | ⟨unfit, pushed⟩
  · rw [pushed]
    exact follows.accept fit added
  · rw [pushed]
    exact follows.reject unfit

theorem follows_extend (connections : List Connection) : (start.extend connections).Follows connections := by
  induction connections using List.reverseRecOn with
  | nil => exact follows_start
  | append_singleton connections c ih =>
    rw [extend, List.foldl_append]
    exact ih.push c

/-- It does not matter how connections are divided into batches. -/
theorem ofBatches_eq (batches : List Batch) :
    ofBatches batches = start.extend (batches.flatMap Batch.connections) := by
  induction batches using List.reverseRecOn with
  | nil => rfl
  | append_singleton batches batch ih =>
    rw [ofBatches, List.foldl_append, List.flatMap_append, extend, List.foldl_append]
    change (ofBatches batches).take batch = _
    rw [ih, List.flatMap_singleton]
    cases batch <;> rfl

/-- What an intake amounts to: the books, the edges, and which of them leave a vertex in which order. -/
structure Accounts (i : Intake) (connections : List Connection) : Prop extends i.Tallies connections where
  edges {id e} : i.network.edge? id = some e ↔ ∃ c ∈ i.report.accepted connections, c.connector = id ∧
    e = ⟨c.connector, c.ends.1, c.ends.2, c.direction = .bidirectional, c.cost, c.inverseCost⟩
  outgoing (v) : i.network.outgoing v = ((i.report.accepted connections).filter (·.Departs v)).map (·.connector)

/-- However connections are divided into batches, each is either an edge of the network or a rejection with its
place and its fault, and the counts say so. -/
theorem accounted (batches : List Batch) :
    (ofBatches batches).Accounts (batches.flatMap Batch.connections) ∧
      Network.ofConnections (batches.flatMap Batch.connections) =
        ((ofBatches batches).network, (ofBatches batches).report) := by
  rw [ofBatches_eq]
  have follows := follows_extend (batches.flatMap Batch.connections)
  refine ⟨{ follows with edges := fun {id e} => ?_, outgoing := fun v => ?_ }, rfl⟩
  · rw [follows.holds.edges]
    constructor
    · rintro ⟨member, own⟩
      obtain ⟨c, accepted, rfl⟩ := List.mem_map.mp member
      exact ⟨c, accepted, own, c.edge_eq⟩
    · rintro ⟨c, accepted, own, rfl⟩
      exact ⟨c.edge_eq ▸ List.mem_map_of_mem accepted, own⟩
  · rw [follows.holds.outgoing, List.filter_map, List.map_map]
    refine congrArg (List.map _) (List.filter_congr fun c _ => ?_)
    exact decide_eq_decide.mpr Connection.leaves_edge

/-- A connector that is taken, a cost below zero, a loop, a connection travelled from its target, whose connector
was refused before, and one with neither a cost nor a connector of its own. -/
def delivery : List Batch :=
  [.one (.bidirectional 1 2 100 (.ofInt 1)),
    .many [.bidirectional 2 3 100 (.ofInt 5), .directed 3 4 102 (.ofInt (-2)), .bidirectional 5 5 103 .zero],
    .one ⟨6, 7, 102, .targetToSource, .ofInt 4, .ofInt 7⟩, .many [], .one (.directed 8 8 103 .nan)]

theorem accounted_delivery :
    (ofBatches delivery).report.rejections.map (fun x => (x.index, x.error)) =
        [(1, .duplicateEdge 100), (2, .invalidCost 102 (.ofInt (-2))), (5, .invalidCost 103 .nan)] ∧
      (ofBatches delivery).network.containsVertex 8 = true ∧
      (ofBatches delivery).network.outgoing 5 = [103] ∧ (ofBatches delivery).network.outgoing 7 = [102] ∧
      (ofBatches delivery).network.edge? 102 = some ⟨102, 7, 6, false, .ofInt 4, .ofInt 7⟩ := by
  obtain ⟨accounts, _⟩ := accounted delivery
  refine ⟨by decide +kernel, accounts.vertices.mpr ⟨.directed 8 8 103 .nan, by decide +kernel, .inl rfl⟩, ?_, ?_,
    accounts.edges.mpr ⟨⟨6, 7, 102, .targetToSource, .ofInt 4, .ofInt 7⟩, by decide +kernel, rfl, rfl⟩⟩
  · rw [accounts.outgoing]
    decide +kernel
  · rw [accounts.outgoing]
    decide +kernel

end Intake

end FeatureNet
