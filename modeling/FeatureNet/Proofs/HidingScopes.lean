import FeatureNet.Network.Intake
import FeatureNet.Proofs.HiddenEdges
import Mathlib.Data.List.Induction

namespace FeatureNet

namespace Hiding

variable {h : Hiding} {n : Network} {edge : FeatureId}

namespace Request

/-- Whether an id is asked for: by itself, or as one that leaves a vertex. -/
def Names (n : Network) : Request → FeatureId → Prop
  | .edge id, edge => edge = id
  | .leaving v, edge => edge ∈ n.outgoing v

instance (n : Network) (edge : FeatureId) : (request : Request) → Decidable (request.Names n edge)
  | .edge id => inferInstanceAs (Decidable (edge = id))
  | .leaving v => inferInstanceAs (Decidable (edge ∈ n.outgoing v))

end Request

/-- Whether an edge of a network is among those asked for. -/
def Asked (n : Network) (requests : List Request) (edge : FeatureId) : Prop :=
  ∃ request ∈ requests, request.Names n edge

instance (n : Network) (requests : List Request) (edge : FeatureId) : Decidable (Asked n requests edge) :=
  inferInstanceAs (Decidable (∃ request ∈ requests, request.Names n edge))

/-- The names are those asked for, whether or not the network has such an edge. -/
theorem mem_named_opened (n : Network) (requests : List Request) (edge : FeatureId) :
    edge ∈ (opened n requests).named ↔ Asked n requests edge := by
  have each (h : Hiding) (request : Request) (masks : h.Masks n) :
      (h.carryOut request).Masks n ∧
        ∀ id, id ∈ (h.carryOut request).named ↔ request.Names n id ∨ id ∈ h.named := by
    cases request with
    | edge id => exact ⟨masks.hide id, fun _ => mem_named_hide⟩
    | leaving v => exact masks.hideOutgoing v
  obtain ⟨_, named⟩ := Masks.foldl each (masks_ofNetwork n) requests
  exact (named edge).trans (or_iff_left (IdSet.not_mem_empty edge))

/-- A scope of a network that has put aside the own costs of the edges named, each of them once. An id is
named when it is first asked for, so none of these is a cost that the scope itself has set. -/
structure Keeps (h : Hiding) (n : Network) : Prop extends h.Masks n where
  once : (h.ownCosts.map (·.1)).Nodup
  own {id cost} : (id, cost) ∈ h.ownCosts ↔ id ∈ h.named ∧ n.edgeCost? id = some cost

theorem keeps_ofNetwork (n : Network) : (ofNetwork n).Keeps n where
  toMasks := masks_ofNetwork n
  once := .nil
  own := by simp [ofNetwork]

/-- An edge not yet named has its own cost still. -/
theorem Masks.edgeCost?_of_fresh (masks : h.Masks n) (fresh : edge ∉ h.named) :
    h.network.edgeCost? edge = n.edgeCost? edge := by
  rw [Network.edgeCost?, masks.edges, Network.edgeCost?]
  simp [fresh]

theorem Keeps.hide (keeps : h.Keeps n) (edge : FeatureId) : (h.hide edge).Keeps n := by
  have masks := keeps.toMasks.hide edge
  unfold Hiding.hide at masks ⊢
  split
  · exact keeps
  · next fresh =>
    have same := keeps.edgeCost?_of_fresh fresh
    rw [if_neg fresh] at masks
    dsimp only at masks ⊢
    split
    · next unknown =>
      -- An id without an edge is named, and has no cost to put aside.
      rw [unknown] at masks
      refine ⟨masks, keeps.once, fun {id cost} => ?_⟩
      rw [keeps.own, IdSet.mem_insert, or_and_right]
      refine (or_iff_right ?_).symm
      rintro ⟨rfl, known⟩
      rw [← same, unknown] at known
      cases known
    · next own atOwn =>
      rw [atOwn] at masks
      refine ⟨masks, ?_, fun {id cost} => ?_⟩
      · refine List.nodup_cons.mpr ⟨fun member => ?_, keeps.once⟩
        obtain ⟨⟨_, _⟩, aside, rfl⟩ := List.mem_map.mp member
        exact fresh (keeps.own.mp aside).1
      · rw [List.mem_cons, keeps.own, IdSet.mem_insert, or_and_right]
        refine or_congr_left ?_
        rw [Prod.mk.injEq]
        refine and_congr_right fun atEdge => ?_
        rw [atEdge, ← same, atOwn, Option.some_inj, eq_comm]

theorem Keeps.hideAll (keeps : h.Keeps n) (edges : List FeatureId) : (edges.foldl Hiding.hide h).Keeps n := by
  induction edges generalizing h with
  | nil => exact keeps
  | cons edge rest ih => exact ih (keeps.hide edge)

theorem keeps_opened (n : Network) (requests : List Request) : (opened n requests).Keeps n := by
  unfold opened
  induction requests using List.reverseRecOn with
  | nil => exact keeps_ofNetwork n
  | append_singleton requests request ih =>
    rw [List.foldl_append]
    cases request with
    | edge id => exact ih.hide id
    | leaving v => exact ih.hideAll _

/-- As many costs are put aside as there are edges named. -/
theorem Keeps.size_eq (keeps : h.Keeps n) : h.size = (n.edges.keys.filter (· ∈ h.named)).length := by
  have keys : (n.edges.keys.filter (· ∈ h.named)).Nodup :=
    (n.edges.keys_ascending.imp FeatureId.ne_of_lt).filter _
  have same : (h.ownCosts.map (·.1)).Perm (n.edges.keys.filter (· ∈ h.named)) := by
    refine (List.perm_ext_iff_of_nodup keeps.once keys).mpr fun id => ?_
    rw [List.mem_filter, decide_eq_true_iff, ← IdMap.contains_iff_mem_keys, List.mem_map, Prod.exists]
    simp only [keeps.own, exists_and_right, exists_eq_right, exists_and_left]
    rw [and_comm, ← Option.isSome_iff_exists, Network.edgeCost?, Option.isSome_map]
    rfl
  rw [size, ← same.length_eq, List.length_map]

/-- Whatever has been asked of a scope, in whatever order and how often, the edges asked for cost infinity in it,
all else is as in its network, and its size is the number of these edges. Closing the scope gives the network
back, so any number of scopes one after another do. -/
theorem opened_exact (n : Network) (requests : List Request) :
    ((opened n requests).network.vertices = n.vertices ∧
      ∀ id, (opened n requests).network.edge? id =
        (n.edge? id).map fun e => if Asked n requests id then { e with cost := .infinity } else e) ∧
      (opened n requests).size = (n.edges.keys.filter (Asked n requests ·)).length ∧
      (opened n requests).close = n ∧
      ∀ scopes : List (List Request), scopes.foldl (fun m requests => (opened m requests).close) n = n := by
  have keeps := keeps_opened n requests
  refine ⟨⟨keeps.vertices, fun id => ?_⟩, ?_, close_opened n requests, fun scopes => ?_⟩
  · simp only [keeps.edges, mem_named_opened]
  · simp only [keeps.size_eq, mem_named_opened]
  · induction scopes with
    | nil => rfl
    | cons requests rest ih => rw [List.foldl_cons, close_opened, ih]

/-- Asked for twice, asked for with its vertex, unknown, and at infinity before: three edges are hidden. -/
example :
    let n := (Network.ofConnections [.directed 1 2 12 (.ofInt 1), .directed 1 3 13 .infinity,
      .bidirectional 2 3 23 (.ofInt 2), .directed 3 1 31 .zero]).1
    let h := opened n [.edge 12, .leaving 1, .edge 12, .edge 999, .leaving 7, .edge 23]
    h.size = 3 ∧ h.network.edges.values.map (·.cost) = [.infinity, .infinity, .infinity, .zero] := by
  decide +kernel

end Hiding

end FeatureNet
