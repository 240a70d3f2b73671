import FeatureNet.Network.Intake
import FeatureNet.Proofs.CostSums
import FeatureNet.Proofs.HiddenEdges

namespace FeatureNet

/-- The ends that an edge can be entered from. -/
def Edge.Leaves (e : Edge) (v : FeatureId) : Prop := v = e.source ∨ e.bidirectional = true ∧ v = e.target

instance (e : Edge) (v : FeatureId) : Decidable (e.Leaves v) :=
  inferInstanceAs (Decidable (v = e.source ∨ _))

/-- Related options are both empty, or hold related values. -/
theorem rel_cases {α β : Type} {r : α → β → Prop} {x : Option α} {y : Option β} (related : Option.Rel r x y) :
    x = none ∧ y = none ∨ ∃ a b, x = some a ∧ y = some b ∧ r a b := by
  cases related with
  | none => exact .inl ⟨rfl, rfl⟩
  | some same => exact .inr ⟨_, _, rfl, rfl, same⟩

namespace Network

/-- What the public operations lead to. An operation that fails leaves the network as it is; the edges
hidden in a scope cost infinity while the scope is open. -/
inductive Built : Network → Prop
  | empty : Built .empty
  | addVertex {n} (id : FeatureId) : Built n → Built (n.addVertex id)
  | addEdge {n m e} : Built n → n.addEdge e = .ok m → Built m
  | block {n m id} : Built n → n.block id = .ok m → Built m
  | unblock {n m id} : Built n → n.unblock id = .ok m → Built m
  | unblockAll {n} : Built n → Built n.unblockAll
  | hide {n} (edge : FeatureId) : Built n → Built (n.setCost edge .infinity)
  | search {n} (source target : FeatureId) (count : Nat) :
      Built n → Built (n.alternatives source target count).2

/-- Every edge is known by its own id, its ends exist, its cost is a cost, and it is listed at the ends
that it leaves and nowhere else. -/
structure WellFormed (n : Network) : Prop where
  ownId {id e} : n.edge? id = some e → e.id = id
  ends {id e} : n.edge? id = some e → n.containsVertex e.source ∧ n.containsVertex e.target
  cost {id e} : n.edge? id = some e → isCost e.cost
  listed {id v} : id ∈ n.outgoing v ↔ ∃ e, n.edge? id = some e ∧ e.Leaves v

theorem containsVertex_eq (n : Network) (v : FeatureId) :
    n.containsVertex v = (n.vertex? v).isSome := rfl

theorem vertex?_addVertex (n : Network) (id v : FeatureId) :
    (n.addVertex id).vertex? v =
      if v = id then some ((n.vertex? id).getD ⟨false, []⟩) else n.vertex? v := by
  unfold addVertex
  split
  · next known =>
    obtain ⟨w, atW⟩ := Option.isSome_iff_exists.mp known
    have found : n.vertex? id = some w := atW
    by_cases same : v = id
    · rw [if_pos same, same, found, Option.getD_some]
    · rw [if_neg same]
  · next unknown =>
    have absent : n.vertex? id = none := by simpa [containsVertex_eq] using unknown
    simp only [vertex?, IdMap.get?_insert]
    rw [show n.vertices.get? id = none from absent, Option.getD_none]

theorem edges_addVertex (n : Network) (id : FeatureId) : (n.addVertex id).edges = n.edges := by
  unfold addVertex
  split <;> rfl

theorem edge?_addVertex (n : Network) (vertex id : FeatureId) :
    (n.addVertex vertex).edge? id = n.edge? id := by
  rw [edge?, edges_addVertex, edge?]

theorem containsVertex_addVertex (n : Network) (id v : FeatureId) :
    (n.addVertex id).containsVertex v = (decide (v = id) || n.containsVertex v) := by
  rw [containsVertex_eq, containsVertex_eq, vertex?_addVertex]
  by_cases same : v = id <;> simp [same]

theorem outgoing_addVertex (n : Network) (id v : FeatureId) :
    (n.addVertex id).outgoing v = n.outgoing v := by
  unfold outgoing
  rw [vertex?_addVertex]
  by_cases same : v = id
  · subst same
    cases n.vertex? v <;> simp
  · rw [if_neg same]

theorem vertex?_setBlocked (n : Network) (id v : FeatureId) (blocked : Bool) :
    (n.setBlocked id blocked).vertex? v =
      (n.vertex? v).map fun w => if v = id then { w with blocked } else w := by
  simp only [setBlocked, vertex?, IdMap.get?_modify]
  split <;> simp

theorem vertex?_unblockAll (n : Network) (v : FeatureId) :
    n.unblockAll.vertex? v = (n.vertex? v).map fun w => { w with blocked := false } :=
  IdMap.get?_mapValues ..

theorem outgoing_setBlocked (n : Network) (id v : FeatureId) (blocked : Bool) :
    (n.setBlocked id blocked).outgoing v = n.outgoing v := by
  unfold outgoing
  rw [vertex?_setBlocked]
  cases n.vertex? v with
  | none => rfl
  | some w => by_cases same : v = id <;> simp [same]

theorem outgoing_unblockAll (n : Network) (v : FeatureId) : n.unblockAll.outgoing v = n.outgoing v := by
  unfold outgoing
  rw [vertex?_unblockAll]
  cases n.vertex? v <;> rfl

theorem block_ok_iff {n m : Network} {id : FeatureId} :
    n.block id = .ok m ↔
      (∃ w, n.vertex? id = some w ∧ w.blocked = false) ∧ m = n.setBlocked id true := by
  unfold block checkBlock
  cases n.vertex? id with
  | none => simp [bind, Except.bind]
  | some w =>
    by_cases blocked : w.blocked = true
    · simp [blocked, bind, Except.bind]
    · simp only [blocked, bind, Except.bind, pure, Except.pure]
      simp [eq_comm (a := m), blocked]

theorem unblock_ok_iff {n m : Network} {id : FeatureId} :
    n.unblock id = .ok m ↔
      (∃ w, n.vertex? id = some w ∧ w.blocked = true) ∧ m = n.setBlocked id false := by
  unfold unblock checkUnblock
  cases n.vertex? id with
  | none => simp [bind, Except.bind]
  | some w =>
    by_cases blocked : w.blocked = true
    · simp only [blocked, bind, Except.bind, pure, Except.pure]
      simp [eq_comm (a := m), blocked]
    · simp [blocked, bind, Except.bind]

/-- All that adding an edge checks, and what it gives. -/
theorem addEdge_ok {n m : Network} {e : Edge} (added : n.addEdge e = .ok m) :
    n.edge? e.id = none ∧ isCost e.cost ∧ n.containsVertex e.source ∧ n.containsVertex e.target ∧
      m = { vertices := listEdge n.vertices e, edges := n.edges.insert e.id e } := by
  unfold addEdge at added
  split at added
  · cases added
  · next fresh =>
    split at added
    · cases added
    · next cost =>
      split at added
      · cases added
      · next source =>
        split at added
        · cases added
        · next target =>
          refine ⟨?_, by simpa using cost, by simpa using source, by simpa using target, ?_⟩
          · change n.edges.get? e.id = none
            simpa [containsEdge, IdMap.contains] using fresh
          · exact (Except.ok.inj added).symm

theorem exists_addEdge {n : Network} {e : Edge} (fresh : n.edge? e.id = none) (cost : isCost e.cost = true)
    (source : n.containsVertex e.source = true) (target : n.containsVertex e.target = true) :
    ∃ m, n.addEdge e = .ok m := by
  have unknown : n.containsEdge e.id = false := Option.isSome_eq_false_iff.mpr (by simpa [edge?] using fresh)
  unfold addEdge
  rw [unknown, cost, source, target]
  exact ⟨_, rfl⟩

theorem get?_listEdge (vertices : IdMap Vertex) (e : Edge) (v : FeatureId) :
    (listEdge vertices e).get? v =
      (vertices.get? v).map fun w => if e.Leaves v then w.leave e.id else w := by
  unfold listEdge Edge.Leaves
  dsimp only
  by_cases both : e.bidirectional = true ∧ e.target ≠ e.source
  · rw [if_pos (by simpa using both)]
    simp only [IdMap.get?_modify, both.1, true_and]
    cases vertices.get? v with
    | none => simp
    | some w =>
      by_cases atTarget : v = e.target
      · simp [atTarget, both.2]
      · by_cases atSource : v = e.source <;> simp [atTarget, atSource, both.2.symm]
  · rw [if_neg (by simpa using both)]
    have single : v = e.source ∨ e.bidirectional = true ∧ v = e.target ↔ v = e.source := by
      refine ⟨fun leaves => ?_, .inl⟩
      rcases leaves with atSource | ⟨way, atTarget⟩
      · exact atSource
      · exact atTarget.trans (Decidable.of_not_not fun loop => both ⟨way, loop⟩)
    simp only [IdMap.get?_modify, single]
    split <;> simp

/-- An edge is added at the end of the lists of the ends that it leaves. -/
theorem outgoing_addEdge {n m : Network} {e : Edge} (added : n.addEdge e = .ok m) (v : FeatureId) :
    m.outgoing v = n.outgoing v ++ if e.Leaves v then [e.id] else [] := by
  obtain ⟨_, _, source, target, rfl⟩ := addEdge_ok added
  unfold outgoing vertex?
  dsimp only
  rw [get?_listEdge]
  by_cases leaves : e.Leaves v
  · have known : (n.vertices.get? v).isSome := by
      rcases leaves with same | ⟨_, same⟩
      · exact same ▸ source
      · exact same ▸ target
    obtain ⟨w, atW⟩ := Option.isSome_iff_exists.mp known
    simp [atW, leaves, Vertex.leave]
  · cases n.vertices.get? v <;> simp [leaves]

theorem containsVertex_addEdge {n m : Network} {e : Edge} (added : n.addEdge e = .ok m) (v : FeatureId) :
    m.containsVertex v = n.containsVertex v := by
  obtain ⟨_, _, _, _, rfl⟩ := addEdge_ok added
  simp only [containsVertex, IdMap.contains, get?_listEdge, Option.isSome_map]

theorem edge?_addEdge {n m : Network} {e : Edge} (added : n.addEdge e = .ok m) (id : FeatureId) :
    m.edge? id = if id = e.id then some e else n.edge? id := by
  obtain ⟨_, _, _, _, rfl⟩ := addEdge_ok added
  exact IdMap.get?_insert ..

theorem edge?_addEdge_eq_some {n m : Network} {e f : Edge} {id : FeatureId} (added : n.addEdge e = .ok m) :
    m.edge? id = some f ↔ f = e ∧ f.id = id ∨ n.edge? id = some f := by
  obtain ⟨unknown, _⟩ := addEdge_ok added
  rw [edge?_addEdge added]
  by_cases same : id = e.id
  · subst same
    rw [if_pos rfl, unknown, Option.some_inj]
    constructor
    · rintro rfl
      exact .inl ⟨rfl, rfl⟩
    · rintro (⟨own, _⟩ | none)
      · exact own.symm
      · cases none
  · rw [if_neg same]
    refine ⟨.inr, fun either => either.resolve_left ?_⟩
    rintro ⟨rfl, own⟩
    exact same own.symm

theorem wellFormed_empty : WellFormed .empty where
  ownId found := by simp [Network.empty, edge?] at found
  ends found := by simp [Network.empty, edge?] at found
  cost found := by simp [Network.empty, edge?] at found
  listed := by simp [Network.empty, edge?, outgoing, vertex?]

/-- What keeps the edges and the lists, and loses no vertex, keeps a network well formed. -/
theorem WellFormed.of_same {n m : Network} (formed : n.WellFormed)
    (edges : ∀ id, m.edge? id = n.edge? id) (outgoing : ∀ v, m.outgoing v = n.outgoing v)
    (vertices : ∀ v, n.containsVertex v → m.containsVertex v) : m.WellFormed where
  ownId found := formed.ownId (edges _ ▸ found)
  ends found :=
    have both := formed.ends (edges _ ▸ found)
    ⟨vertices _ both.1, vertices _ both.2⟩
  cost found := formed.cost (edges _ ▸ found)
  listed := by
    intro id v
    rw [outgoing, edges, formed.listed]

theorem WellFormed.addEdge {n m : Network} {e : Edge} (formed : n.WellFormed)
    (added : n.addEdge e = .ok m) : m.WellFormed := by
  obtain ⟨fresh, cost, source, target, _⟩ := addEdge_ok added
  refine ⟨fun found => ?_, fun found => ?_, fun found => ?_, fun {id v} => ?_⟩
  · rcases (edge?_addEdge_eq_some added).mp found with ⟨_, own⟩ | old
    · exact own
    · exact formed.ownId old
  · rw [containsVertex_addEdge added, containsVertex_addEdge added]
    rcases (edge?_addEdge_eq_some added).mp found with ⟨rfl, _⟩ | old
    · exact ⟨source, target⟩
    · exact formed.ends old
  · rcases (edge?_addEdge_eq_some added).mp found with ⟨rfl, _⟩ | old
    · exact cost
    · exact formed.cost old
  · rw [outgoing_addEdge added, List.mem_append, formed.listed, edge?_addEdge added]
    by_cases same : id = e.id
    · subst same
      by_cases leaves : e.Leaves v <;> simp [fresh, leaves]
    · by_cases leaves : e.Leaves v <;> simp [same, leaves]

/-- Edges put at other costs leave a network well formed. -/
theorem WellFormed.recost {n m : Network} (formed : n.WellFormed) (vertices : m.vertices = n.vertices)
    (edges : ∀ id, Option.Rel (fun e f => f = { e with cost := f.cost } ∧ (isCost e.cost → isCost f.cost))
      (n.edge? id) (m.edge? id)) : m.WellFormed := by
  have own {id : FeatureId} {f : Edge} (found : m.edge? id = some f) :
      ∃ e, n.edge? id = some e ∧ f = { e with cost := f.cost } ∧ isCost f.cost := by
    rcases rel_cases (edges id) with ⟨_, none⟩ | ⟨e, f', old, found', same, cost⟩
    · rw [none] at found
      cases found
    · rw [found'] at found
      cases found
      exact ⟨e, old, same, cost (formed.cost old)⟩
  have outgoing (v : FeatureId) : m.outgoing v = n.outgoing v := by
    unfold outgoing vertex?
    rw [vertices]
  have contains (v : FeatureId) : m.containsVertex v = n.containsVertex v := by
    unfold containsVertex
    rw [vertices]
  refine ⟨fun found => ?_, fun found => ?_, fun found => ?_, fun {id v} => ?_⟩
  · obtain ⟨e, old, same, _⟩ := own found
    have ownId := formed.ownId old
    rw [same]
    exact ownId
  · obtain ⟨e, old, same, _⟩ := own found
    have ends := formed.ends old
    rw [same, contains, contains]
    exact ends
  · obtain ⟨_, _, _, cost⟩ := own found
    exact cost
  · rw [outgoing, formed.listed]
    rcases rel_cases (edges id) with ⟨none, none'⟩ | ⟨e, f, found, found', same, _⟩
    · simp [none, none']
    · rw [found, found', same]
      simp [Edge.Leaves]

/-- Edges hidden, whichever they are, leave a network well formed. -/
theorem WellFormed.hide {n m : Network} (formed : n.WellFormed) {hidden : FeatureId → Prop}
    [DecidablePred hidden] (vertices : m.vertices = n.vertices)
    (edges : ∀ id, m.edge? id =
      (n.edge? id).map fun e => if hidden id then { e with cost := .infinity } else e) : m.WellFormed := by
  refine formed.recost vertices fun id => ?_
  rw [edges]
  cases n.edge? id with
  | none => exact .none
  | some e =>
    by_cases named : hidden id
    · rw [Option.map_some, if_pos named]
      exact .some ⟨rfl, fun _ => isCost_infinity⟩
    · rw [Option.map_some, if_neg named]
      exact .some ⟨rfl, fun cost => cost⟩

/-- Every network that the public operations lead to is well formed. -/
theorem Built.wellFormed {n : Network} (built : n.Built) : n.WellFormed := by
  have flagged {n : Network} (formed : n.WellFormed) (id : FeatureId) (blocked : Bool) :
      (n.setBlocked id blocked).WellFormed := by
    refine formed.of_same (fun _ => rfl) (outgoing_setBlocked n id · blocked) fun v known => ?_
    rwa [containsVertex_eq, vertex?_setBlocked, Option.isSome_map]
  induction built with
  | empty => exact wellFormed_empty
  | @addVertex n id _ ih =>
    refine ih.of_same (edge?_addVertex n id) (outgoing_addVertex n id) fun v known => ?_
    rw [containsVertex_addVertex, known, Bool.or_true]
  | addEdge _ added ih => exact ih.addEdge added
  | block _ done ih => exact (block_ok_iff.mp done).2 ▸ flagged ih _ _
  | unblock _ done ih => exact (unblock_ok_iff.mp done).2 ▸ flagged ih _ _
  | @unblockAll n _ ih =>
    refine ih.of_same (fun _ => rfl) (outgoing_unblockAll n) fun v known => ?_
    rwa [containsVertex_eq, vertex?_unblockAll, Option.isSome_map]
  | hide edge _ ih => exact ih.hide rfl (edge?_setCost _ edge · .infinity)
  | search source target count _ ih => rwa [network_alternatives]

/-- A network in which the ends of a connection are vertices. -/
def withEnds (n : Network) (c : Connection) : Network := (n.addVertex c.source).addVertex c.target

/-- What one connection does to a network: its ends become vertices, and it becomes an edge or nothing more. -/
theorem network_push (i : Intake) (c : Connection) :
    (∃ m, (i.network.withEnds c).addEdge c.edge = .ok m ∧ (i.push c).network = m) ∨
      (i.push c).network = i.network.withEnds c := by
  have added (i : Intake) (id : FeatureId) : (i.addVertex id).network = i.network.addVertex id := by
    unfold Intake.addVertex
    split
    · next known => rw [addVertex, if_pos known]
    · rfl
  unfold Intake.push
  dsimp only
  rw [added, added]
  split
  · next m done =>
    unfold Intake.addConnection at done
    split at done
    · exact .inl ⟨m, done, rfl⟩
    · cases done
  · exact .inr rfl

theorem Built.push {i : Intake} (built : i.network.Built) (c : Connection) : (i.push c).network.Built := by
  have both : (i.network.withEnds c).Built := (built.addVertex c.source).addVertex c.target
  rcases network_push i c with ⟨m, added, same⟩ | same
  · rw [same]
    exact both.addEdge added
  · rw [same]
    exact both

/-- Taking in connections is nothing but adding vertices and edges. -/
theorem built_ofConnections (connections : List Connection) : (ofConnections connections).1.Built := by
  suffices general : ∀ i : Intake, i.network.Built → (i.extend connections).network.Built from
    general .start .empty
  unfold Intake.extend
  induction connections with
  | nil => exact fun _ built => built
  | cons c rest ih => exact fun i built => ih _ (built.push c)

end Network

end FeatureNet
