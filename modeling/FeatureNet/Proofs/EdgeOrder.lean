import FeatureNet.Proofs.BuiltNetworks
import Mathlib.Data.List.Nodup

namespace FeatureNet

namespace Network

/-- What the public operations lead to, with the ids of the edges accepted on the way, the first one first. -/
inductive Grown : Network → List FeatureId → Prop
  | empty : Grown .empty []
  | addVertex {n added} (id : FeatureId) : Grown n added → Grown (n.addVertex id) added
  | addEdge {n m e added} : Grown n added → n.addEdge e = .ok m → Grown m (added ++ [e.id])
  | block {n m id added} : Grown n added → n.block id = .ok m → Grown m added
  | unblock {n m id added} : Grown n added → n.unblock id = .ok m → Grown m added
  | unblockAll {n added} : Grown n added → Grown n.unblockAll added
  | hide {n added} (edge : FeatureId) : Grown n added → Grown (n.setCost edge .infinity) added
  | search {n added} (source target : FeatureId) (count : Nat) :
      Grown n added → Grown (n.alternatives source target count).2 added

variable {n m : Network} {added : List FeatureId}

theorem Built.exists_grown (built : n.Built) : ∃ added, n.Grown added := by
  induction built with
  | empty => exact ⟨[], .empty⟩
  | addVertex id _ ih => exact ih.imp fun _ => .addVertex id
  | addEdge _ done ih => exact ih.elim fun _ grown => ⟨_, grown.addEdge done⟩
  | block _ done ih => exact ih.imp fun _ grown => grown.block done
  | unblock _ done ih => exact ih.imp fun _ grown => grown.unblock done
  | unblockAll _ ih => exact ih.imp fun _ => .unblockAll
  | hide edge _ ih => exact ih.imp fun _ => .hide edge
  | search source target count _ ih => exact ih.imp fun _ => .search source target count

theorem Grown.built (grown : n.Grown added) : n.Built := by
  induction grown with
  | empty => exact .empty
  | addVertex id _ ih => exact ih.addVertex id
  | addEdge _ done ih => exact ih.addEdge done
  | block _ done ih => exact ih.block done
  | unblock _ done ih => exact ih.unblock done
  | unblockAll _ ih => exact ih.unblockAll
  | hide edge _ ih => exact ih.hide edge
  | search source target count _ ih => exact ih.search source target count

/-- Whether an edge of the network leaves a vertex. -/
def leaves (n : Network) (v id : FeatureId) : Bool := (n.edge? id).any fun e => e.Leaves v

/-- The edges of a network in some order, in which every vertex lists those that leave it. -/
structure Lists (n : Network) (added : List FeatureId) : Prop where
  nodup : added.Nodup
  mem {id} : id ∈ added ↔ (n.edge? id).isSome
  outgoing (v) : n.outgoing v = added.filter (n.leaves v)

theorem Lists.of_same (lists : n.Lists added) (edges : ∀ id, (m.edge? id).isSome = (n.edge? id).isSome)
    (leaves : ∀ v id, m.leaves v id = n.leaves v id) (outgoing : ∀ v, m.outgoing v = n.outgoing v) :
    m.Lists added where
  nodup := lists.nodup
  mem := by
    intro id
    rw [edges, lists.mem]
  outgoing v := by
    rw [outgoing, lists.outgoing]
    exact List.filter_congr fun id _ => (leaves v id).symm

theorem Lists.addEdge {e : Edge} (lists : n.Lists added) (done : n.addEdge e = .ok m) :
    m.Lists (added ++ [e.id]) := by
  obtain ⟨unknown, _⟩ := addEdge_ok done
  have fresh : e.id ∉ added := fun member => by simpa [unknown] using lists.mem.mp member
  refine ⟨?_, fun {id} => ?_, fun v => ?_⟩
  · rw [← List.concat_eq_append]
    exact lists.nodup.concat fresh
  · rw [List.mem_append, List.mem_singleton, lists.mem, edge?_addEdge done]
    by_cases same : id = e.id <;> simp [same]
  · have before : added.filter (m.leaves v) = added.filter (n.leaves v) := by
      refine List.filter_congr fun id member => ?_
      have other : id ≠ e.id := fun same => fresh (same ▸ member)
      rw [leaves, leaves, edge?_addEdge done, if_neg other]
    have now : m.leaves v e.id = decide (e.Leaves v) := by
      rw [leaves, edge?_addEdge done, if_pos rfl, Option.any_some]
    rw [outgoing_addEdge done, lists.outgoing, List.filter_append, before]
    by_cases leaves : e.Leaves v <;> simp [now, leaves]

/-- Every vertex lists the edges that leave it, each once and in the order in which they were accepted. -/
theorem Grown.lists (grown : n.Grown added) : n.Lists added := by
  induction grown with
  | empty => exact ⟨.nil, by simp [Network.empty, edge?], fun v => by simp [Network.empty, outgoing, vertex?]⟩
  | @addVertex n _ id _ ih =>
    refine ih.of_same (fun key => ?_) (fun v key => ?_) (outgoing_addVertex n id)
    · rw [edge?_addVertex]
    · rw [leaves, leaves, edge?_addVertex]
  | addEdge _ done ih => exact ih.addEdge done
  | @block n _ id _ _ done ih =>
    rw [(block_ok_iff.mp done).2]
    exact ih.of_same (fun _ => rfl) (fun _ _ => rfl) (outgoing_setBlocked n id · true)
  | @unblock n _ id _ _ done ih =>
    rw [(unblock_ok_iff.mp done).2]
    exact ih.of_same (fun _ => rfl) (fun _ _ => rfl) (outgoing_setBlocked n id · false)
  | @unblockAll n _ _ ih => exact ih.of_same (fun _ => rfl) (fun _ _ => rfl) (outgoing_unblockAll n)
  | @hide n _ edge _ ih =>
    refine ih.of_same (fun id => ?_) (fun v id => ?_) fun _ => rfl
    · rw [edge?_setCost, Option.isSome_map]
    · rw [leaves, leaves, edge?_setCost, Option.any_map]
      refine congrArg (Option.any · (n.edge? id)) (funext fun e => ?_)
      by_cases same : id = edge
      · simp only [if_pos same]
        rfl
      · simp only [if_neg same]
  | search source target count _ ih => rwa [network_alternatives]

end Network

end FeatureNet
