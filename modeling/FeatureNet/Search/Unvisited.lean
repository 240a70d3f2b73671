import FeatureNet.IdSet
import FeatureNet.Network

namespace FeatureNet

namespace Network

def openListings (visited : IdSet) : List (FeatureId × Vertex) → Nat
  | [] => 0
  | e :: rest =>
    (if e.1 ∈ visited then 0 else e.2.outgoing.length) + openListings visited rest

/-- How many edges are listed at vertices that are not visited. Visiting a vertex takes its own list off
the count, which bounds every traversal that queues an entry for each edge listed at a visited vertex. -/
def unvisitedEdges (n : Network) (visited : IdSet) : Nat := openListings visited n.vertices.entries

theorem openListings_insert {visited : IdSet} {u : FeatureId} (fresh : u ∉ visited)
    {l : List (FeatureId × Vertex)} (ascending : l.Pairwise fun a b => a.1 < b.1) :
    openListings (visited.insert u) l + (((l.lookup u).map (·.outgoing)).getD []).length =
      openListings visited l := by
  induction l with
  | nil => rfl
  | cons head rest ih =>
    obtain ⟨k, v⟩ := head
    obtain ⟨below, tail⟩ := List.pairwise_cons.mp ascending
    have inner := ih tail
    by_cases same : u = k
    · subst same
      have absent : rest.lookup u = none := by
        rw [List.lookup_eq_none_iff]
        intro e member
        have := FeatureId.ne_of_lt (below e member)
        simpa using this
      rw [absent] at inner
      simp only [openListings, IdSet.mem_insert, true_or, if_true, List.lookup_cons_self, fresh,
        if_false, Option.map_some, Option.getD_some] at inner ⊢
      simp only [Option.map_none, Option.getD_none, List.length_nil] at inner
      omega
    · have other : (k ∈ visited.insert u) ↔ k ∈ visited := by
        simp [IdSet.mem_insert, Ne.symm same]
      have skip : ((k, v) :: rest).lookup u = rest.lookup u := by
        simp [List.lookup_cons, beq_false_of_ne same]
      simp only [openListings, other, skip]
      omega

theorem unvisitedEdges_insert (n : Network) {visited : IdSet} {u : FeatureId}
    (fresh : u ∉ visited) :
    n.unvisitedEdges (visited.insert u) + (n.outgoing u).length = n.unvisitedEdges visited :=
  openListings_insert fresh n.vertices.ascending

end Network

end FeatureNet
