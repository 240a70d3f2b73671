import FeatureNet.Proofs.AlikeNetworks
import FeatureNet.Proofs.BlockedVertices
import FeatureNet.Proofs.EdgeOrder

namespace FeatureNet

open Network

namespace Network

variable {n m : Network} {added : List FeatureId}

/-- The vertices of a network alone, none of them blocked. -/
def bare (n : Network) : Network := n.vertices.keys.foldl addVertex .empty

/-- A network built anew with those of its edges only that are usable, in the order in which they were
added. -/
def rebuilt (n : Network) (added : List FeatureId) : Except NetworkError Network :=
  (added.filterMap n.usable?).foldlM addEdge n.bare

theorem foldl_addVertex (ids : List FeatureId) (n : Network) :
    (∀ added, n.Grown added → (ids.foldl addVertex n).Grown added) ∧
      (∀ v, (ids.foldl addVertex n).containsVertex v = (decide (v ∈ ids) || n.containsVertex v)) ∧
        (∀ v, (ids.foldl addVertex n).isBlocked v = n.isBlocked v) ∧
          ∀ id, (ids.foldl addVertex n).edge? id = n.edge? id := by
  induction ids generalizing n with
  | nil => exact ⟨fun _ => id, by simp, fun _ => rfl, fun _ => rfl⟩
  | cons id ids ih =>
    obtain ⟨grown, contains, blocked, edges⟩ := ih (n.addVertex id)
    refine ⟨fun added before => grown added (before.addVertex id), fun v => ?_, fun v => ?_, fun key => ?_⟩
    · rw [List.foldl_cons, contains, containsVertex_addVertex]
      by_cases same : v = id <;> simp [same]
    · rw [List.foldl_cons, blocked, isBlocked_addVertex]
    · rw [List.foldl_cons, edges, edge?_addVertex]

theorem grown_bare (n : Network) : n.bare.Grown [] := (foldl_addVertex n.vertices.keys .empty).1 [] .empty

theorem containsVertex_bare (n : Network) (v : FeatureId) : n.bare.containsVertex v = n.containsVertex v := by
  rw [bare, (foldl_addVertex n.vertices.keys .empty).2.1]
  have unknown : Network.empty.containsVertex v = false := rfl
  rw [unknown, Bool.or_false, Bool.eq_iff_iff, decide_eq_true_iff]
  exact IdMap.contains_iff_mem_keys.symm

theorem isBlocked_bare (n : Network) (v : FeatureId) : n.bare.isBlocked v = false :=
  (foldl_addVertex n.vertices.keys .empty).2.2.1 v

theorem edge?_bare (n : Network) (id : FeatureId) : n.bare.edge? id = none :=
  (foldl_addVertex n.vertices.keys .empty).2.2.2 id

/-- A network to which edges are added, one after another. -/
structure Adds (n m : Network) (edges : List Edge) : Prop where
  grown {before : List FeatureId} : n.Grown before → m.Grown (before ++ edges.map (·.id))
  vertices (v) : m.containsVertex v = n.containsVertex v
  blocked (v) : m.isBlocked v = n.isBlocked v
  found {id e} : m.edge? id = some e ↔ e ∈ edges ∧ e.id = id ∨ n.edge? id = some e

theorem adds_nil (n : Network) : n.Adds n [] where
  grown before := by rwa [List.map_nil, List.append_nil]
  vertices _ := rfl
  blocked _ := rfl
  found := by simp

theorem Adds.cons {n' : Network} {e : Edge} {edges : List Edge} (done : n.addEdge e = .ok n')
    (rest : n'.Adds m edges) : n.Adds m (e :: edges) where
  grown before := by
    have onward := rest.grown (before.addEdge done)
    rwa [List.append_assoc, List.singleton_append] at onward
  vertices v := by rw [rest.vertices, containsVertex_addEdge done]
  blocked v := by rw [rest.blocked, isBlocked_addEdge done]
  found := by
    intro id f
    rw [rest.found, edge?_addEdge_eq_some done, List.mem_cons, or_and_right, or_assoc, or_left_comm]

/-- Edges of new ids, acceptable one by one, are all accepted one after another. -/
theorem foldlM_addEdge {edges : List Edge} (distinct : (edges.map (·.id)).Nodup)
    (fresh : ∀ e ∈ edges, n.edge? e.id = none)
    (fit : ∀ e ∈ edges, isCost e.cost = true ∧ n.containsVertex e.source = true ∧
      n.containsVertex e.target = true) :
    ∃ m, edges.foldlM addEdge n = .ok m ∧ n.Adds m edges := by
  induction edges generalizing n with
  | nil => exact ⟨n, rfl, n.adds_nil⟩
  | cons first edges ih =>
    rw [List.map_cons, List.nodup_cons] at distinct
    obtain ⟨cost, source, target⟩ := fit first (List.mem_cons_self ..)
    obtain ⟨n', done⟩ := exists_addEdge (fresh first (List.mem_cons_self ..)) cost source target
    have fresh' (e : Edge) (member : e ∈ edges) : n'.edge? e.id = none := by
      have other : e.id ≠ first.id := fun same => distinct.1 (same ▸ List.mem_map_of_mem (f := (·.id)) member)
      rw [edge?_addEdge done, if_neg other]
      exact fresh e (List.mem_cons_of_mem _ member)
    have fit' (e : Edge) (member : e ∈ edges) :
        isCost e.cost = true ∧ n'.containsVertex e.source = true ∧ n'.containsVertex e.target = true := by
      rw [containsVertex_addEdge done, containsVertex_addEdge done]
      exact fit e (List.mem_cons_of_mem _ member)
    obtain ⟨m, rest, adds⟩ := ih distinct.2 fresh' fit'
    refine ⟨m, ?_, adds.cons done⟩
    rw [List.foldlM_cons, done]
    exact rest

/-- The ids of the usable edges, in the order in which they were added. -/
theorem map_id_usable (formed : n.WellFormed) (added : List FeatureId) :
    (added.filterMap n.usable?).map (·.id) = added.filter fun id => (n.usable? id).isSome := by
  induction added with
  | nil => rfl
  | cons id added ih =>
    cases usable : n.usable? id with
    | none => rw [List.filterMap_cons_none usable, ih, List.filter_cons_of_neg (by simp [usable])]
    | some e =>
      rw [List.filterMap_cons_some usable, List.map_cons, ih, List.filter_cons_of_pos (by simp [usable]),
        formed.ownId (usable?_eq_some.mp usable).1]

/-- Building anew what is usable succeeds, blocks nothing and leaves out nothing that a search sees. -/
theorem Grown.rebuilt (grown : n.Grown added) :
    ∃ m, n.rebuilt added = .ok m ∧ m.Built ∧ (∀ v, m.isBlocked v = false) ∧ n.Alike m := by
  have formed := grown.built.wellFormed
  have lists := grown.lists
  have ids := map_id_usable formed added
  have member {e : Edge} : e ∈ added.filterMap n.usable? ↔ n.usable? e.id = some e := by
    rw [List.mem_filterMap]
    constructor
    · rintro ⟨id, _, usable⟩
      rwa [formed.ownId (usable?_eq_some.mp usable).1]
    · intro usable
      exact ⟨e.id, lists.mem.mpr (by simp [(usable?_eq_some.mp usable).1]), usable⟩
  obtain ⟨m, done, adds⟩ := foldlM_addEdge (n := n.bare) (ids ▸ lists.nodup.filter _)
    (fun e _ => n.edge?_bare e.id) (fun e isUsable => by
      obtain ⟨found, _⟩ := usable?_eq_some.mp (member.mp isUsable)
      rw [containsVertex_bare, containsVertex_bare]
      exact ⟨formed.cost found, formed.ends found⟩)
  have free (v : FeatureId) : m.isBlocked v = false := (adds.blocked v).trans (n.isBlocked_bare v)
  have found {id : FeatureId} {e : Edge} : m.edge? id = some e ↔ n.usable? id = some e := by
    rw [adds.found, edge?_bare, member]
    constructor
    · rintro (⟨usable, rfl⟩ | none)
      · exact usable
      · cases none
    · intro usable
      have own := formed.ownId (usable?_eq_some.mp usable).1
      exact .inl ⟨own ▸ usable, own⟩
  have edges (id : FeatureId) : n.usable? id = m.usable? id := by
    refine Option.ext fun e => ?_
    rw [usable?_eq_some (n := m), found, free, free]
    exact ⟨fun usable => ⟨usable, (usable?_eq_some.mp usable).2.1, rfl, rfl⟩, And.left⟩
  refine ⟨m, done, (adds.grown n.grown_bare).built, free, ?_, edges, fun v => ?_⟩
  · intro v
    rw [adds.vertices, containsVertex_bare]
  · have lists' := (adds.grown n.grown_bare).lists
    rw [List.nil_append, ids] at lists'
    unfold usableAt
    rw [lists.outgoing, lists'.outgoing, List.filter_filter, List.filter_filter, List.filter_filter]
    refine List.filter_congr fun id _ => ?_
    rw [← edges]
    cases usable : n.usable? id with
    | none => simp
    | some e => simp [leaves, found.mpr usable, (usable?_eq_some.mp usable).1]

/-- From an unblocked source, blocked vertices and edges of infinite cost are as good as deleted: the network
built anew without them, the other edges added in their old order and nothing blocked, has the same tree, ties
and all, and the same alternatives. Edges may have come in one order or another; it holds of each. -/
theorem deletion_invisible (built : n.Built) (source : FeatureId) (free : n.isBlocked source = false) :
    (∃ added, n.Grown added) ∧ ∀ added, n.Grown added → ∃ m, n.rebuilt added = .ok m ∧ m.Built ∧
      (∀ v, m.containsVertex v = n.containsVertex v ∧ m.isBlocked v = false) ∧
        m.cheapestTree source = n.cheapestTree source ∧
          ∀ target count, (m.alternatives source target count).1 = (n.alternatives source target count).1 := by
  refine ⟨built.exists_grown, fun added grown => ?_⟩
  obtain ⟨m, done, built', free', alike⟩ := grown.rebuilt
  have formed := built.wellFormed
  have formed' := built'.wellFormed
  refine ⟨m, done, built', fun v => ⟨(alike.vertices v).symm, free' v⟩, ?_, fun target count => ?_⟩
  · exact (alike.cheapestTree formed formed' free (free' source)).symm
  · exact (alike.alternatives formed formed' free (free' source) target count).symm

/-- Two ways of one cost, and two of no cost of which one is hidden and the other passes a blocked vertex. -/
def fenced : Network :=
  ((ofConnections
    [.directed 1 4 14 .zero, .bidirectional 1 2 12 (.ofInt 1), .bidirectional 1 3 13 (.ofInt 1),
      .directed 1 5 15 .zero, .directed 3 4 34 (.ofInt 1), .directed 2 4 24 (.ofInt 1),
      .directed 5 4 54 .zero]).1.setBlocked 5 true).setCost 14 .infinity

theorem deletion_invisible_fenced :
    fenced.Built ∧ fenced.isBlocked 1 = false ∧ ∃ added m, fenced.Grown added ∧
      fenced.rebuilt added = .ok m ∧ m.cheapestTree 1 = fenced.cheapestTree 1 ∧
        (m.alternatives 1 4 5).1 =
          [⟨[⟨1, none⟩, ⟨2, some 12⟩, ⟨4, some 24⟩]⟩, ⟨[⟨1, none⟩, ⟨3, some 13⟩, ⟨4, some 34⟩]⟩] := by
  have built : fenced.Built := by
    refine .hide 14 (.block (built_ofConnections _) (block_ok_iff.mpr ⟨⟨⟨false, [54]⟩, ?_, rfl⟩, rfl⟩))
    decide +kernel
  have free : fenced.isBlocked 1 = false := by decide +kernel
  obtain ⟨⟨added, grown⟩, each⟩ := deletion_invisible built 1 free
  obtain ⟨m, done, _, _, tree, paths⟩ := each added grown
  refine ⟨built, free, added, m, grown, done, tree, ?_⟩
  rw [paths]
  decide +kernel

end Network

end FeatureNet
