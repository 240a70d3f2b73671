import FeatureNet.Network.Fingerprint
import FeatureNet.Proofs.AgreeingNetworks
import FeatureNet.Proofs.WrittenValues

namespace FeatureNet

open Json Binary64

namespace Json

variable {α : Type} {l l' : List α}

theorem array_map_eq_iff {f : α → Value} :
    Value.array (l.map f) = .array (l'.map f) ↔ List.Forall₂ (fun a b => f a = f b) l l' := by
  rw [Value.array.injEq, ← List.forall₂_eq_eq_eq, List.forall₂_map_left_iff, List.forall₂_map_right_iff]

theorem floatsItems_map {p : Binary64 → Prop} {f : α → Value} (each : ∀ a, (f a).Floats p) (l : List α) :
    FloatsItems p (l.map f) := by
  induction l with
  | nil => trivial
  | cons a l ih => exact ⟨each a, ih⟩

theorem idsValue_inj {ids ids' : List FeatureId} : idsValue ids = idsValue ids' ↔ ids = ids' := by
  unfold idsValue
  rw [array_map_eq_iff]
  simp only [idValue, Value.int.injEq, FeatureId.toInt_inj, List.forall₂_eq_eq_eq]

theorem floatless_idsValue (ids : List FeatureId) : (idsValue ids).Floatless := by
  refine floatsItems_map (fun id => ?_) ids
  trivial

/-- Different texts under one hash. -/
def Value.Collides (v w : Value) : Prop := v.bytes ≠ w.bytes ∧ v.hash = w.hash

instance (v w : Value) : Decidable (v.Collides w) := inferInstanceAs (Decidable (_ ∧ _))

/-- Values under one hash are equal, or their texts collide. -/
theorem eq_or_collides {v w : Value} (floatless : v.Floatless) (floatless' : w.Floatless)
    (same : v.hashText = w.hashText) : v = w ∨ v.Collides w := by
  by_cases bytes : v.bytes = w.bytes
  · exact .inl ((bytes_inj floatless floatless').mp bytes)
  · exact .inr ⟨bytes, Xxh64.hexText_inj.mp same⟩

end Json

/-- Edges that differ in nothing but the signs of zeros. -/
structure Edge.Matches (e f : Edge) : Prop extends e.Agrees f where
  inverseCost : e.inverseCost.Same f.inverseCost

instance (e f : Edge) : Decidable (e.Matches f) :=
  decidable_of_iff (e.Agrees f ∧ e.inverseCost.Same f.inverseCost)
    ⟨fun ⟨agrees, inverse⟩ => ⟨agrees, inverse⟩, fun same => ⟨same.toAgrees, same.inverseCost⟩⟩

namespace Network

variable {n m : Network}

/-- Networks of the same vertices, edges, costs and blocked vertices, the two zeros being one cost. -/
abbrev SameState (n m : Network) : Prop := n.AgreesIn Edge.Matches m

/-- One of the pairs of texts that are hashed for two networks collides: of the listings, or of the summaries that
the hashes of the listings go into. -/
def Collides (n m : Network) : Prop :=
  n.vertexListing.Collides m.vertexListing ∨ n.topologyListing.Collides m.topologyListing ∨
    n.costListing.Collides m.costListing ∨ n.blockedListing.Collides m.blockedListing ∨
      n.fingerprint.summary.Collides m.fingerprint.summary

instance (n m : Network) : Decidable (n.Collides m) := inferInstanceAs (Decidable (_ ∨ _))

theorem floatless_vertexListing (n : Network) : n.vertexListing.Floatless := floatless_idsValue _

theorem floatless_topologyListing (n : Network) : n.topologyListing.Floatless := by
  refine floatsItems_map (fun e => ?_) n.edges.values
  exact ⟨trivial, trivial, trivial, trivial, trivial⟩

theorem floatless_costListing (n : Network) : n.costListing.Floatless := by
  refine floatsItems_map (fun e => ?_) n.edges.values
  exact ⟨trivial, trivial, trivial, trivial⟩

theorem floatless_blockedListing (n : Network) : n.blockedListing.Floatless := floatless_idsValue _

theorem floatless_summary (f : Fingerprint) : f.summary.Floatless := by
  simp [Value.Floatless, Fingerprint.summary, Value.Floats, FloatsMembers, naturalValue]

theorem topologyListing_eq_iff : n.topologyListing = m.topologyListing ↔
    List.Forall₂ (fun e f => e.id = f.id ∧ e.source = f.source ∧ e.target = f.target ∧
      e.bidirectional = f.bidirectional) n.edges.values m.edges.values := by
  unfold topologyListing
  rw [array_map_eq_iff]
  simp only [idValue, Value.array.injEq, List.cons.injEq, Value.int.injEq, FeatureId.toInt_inj,
    Value.bool.injEq, and_true]

theorem costListing_eq_iff : n.costListing = m.costListing ↔
    List.Forall₂ (fun e f => e.id = f.id ∧ e.cost.Same f.cost ∧ e.inverseCost.Same f.inverseCost)
      n.edges.values m.edges.values := by
  unfold costListing
  rw [array_map_eq_iff]
  simp only [idValue, naturalValue, Value.array.injEq, List.cons.injEq, Value.int.injEq, FeatureId.toInt_inj,
    Int.natCast_inj, UInt64.toNat_inj, foldedBits_eq_iff, and_true]

/-- Edges are listed by the ids that they are known by. -/
theorem WellFormed.edges_keys (formed : n.WellFormed) : n.edges.keys = n.edges.values.map (·.id) := by
  unfold IdMap.keys IdMap.values
  rw [List.map_map]
  exact List.map_congr_left fun ⟨_, _⟩ member => (formed.ownId (IdMap.mem_entries_iff.mp member)).symm

/-- The listings of the edges' ways and of their costs together tell everything about the edges. -/
theorem edges_match_iff (formed : n.WellFormed) (formed' : m.WellFormed) :
    n.topologyListing = m.topologyListing ∧ n.costListing = m.costListing ↔
      n.edges.keys = m.edges.keys ∧ List.Forall₂ Edge.Matches n.edges.values m.edges.values := by
  rw [topologyListing_eq_iff, costListing_eq_iff, formed.edges_keys, formed'.edges_keys]
  generalize n.edges.values = edges
  generalize m.edges.values = edges'
  constructor
  · rintro ⟨ways, costs⟩
    induction ways with
    | nil => exact ⟨rfl, .nil⟩
    | cons way _ ih =>
      obtain ⟨cost, costs⟩ := List.forall₂_cons.mp costs
      obtain ⟨keys, edges⟩ := ih costs
      refine ⟨by rw [List.map_cons, List.map_cons, keys, way.1], .cons ?_ edges⟩
      exact ⟨⟨way.1, way.2.1, way.2.2.1, way.2.2.2, cost.2.1⟩, cost.2.2⟩
  · rintro ⟨_, edges⟩
    exact ⟨edges.imp fun _ _ same => ⟨same.id, same.source, same.target, same.bidirectional⟩,
      edges.imp fun _ _ same => ⟨same.id, same.cost, same.inverseCost⟩⟩

/-- Networks have the same listings exactly if they are in the same state. -/
theorem listings_eq_iff (formed : n.WellFormed) (formed' : m.WellFormed) :
    n.vertexListing = m.vertexListing ∧ n.topologyListing = m.topologyListing ∧ n.costListing = m.costListing ∧
      n.blockedListing = m.blockedListing ↔ n.SameState m := by
  have edges := edges_match_iff formed formed'
  rw [SameState, agreesIn_iff, ← edges, vertexListing, vertexListing, blockedListing, blockedListing,
    idsValue_inj, idsValue_inj]
  constructor
  · rintro ⟨vertices, ways, costs, blocked⟩
    exact ⟨vertices, blocked, ways, costs⟩
  · rintro ⟨vertices, blocked, ways, costs⟩
    exact ⟨vertices, ways, costs, blocked⟩

theorem SameState.fingerprint (formed : n.WellFormed) (formed' : m.WellFormed) (same : n.SameState m) :
    n.fingerprint = m.fingerprint := by
  obtain ⟨vertices, blocked, edges, _⟩ := agreesIn_iff.mp same
  obtain ⟨vertexListing, topologyListing, costListing, blockedListing⟩ := (listings_eq_iff formed formed').mpr same
  unfold Network.fingerprint
  rw [vertexListing, topologyListing, costListing, blockedListing, IdMap.size_congr vertices,
    IdMap.size_congr edges, blocked]

/-- A fingerprint's own id takes no part in it. -/
theorem summary_sealed (f : Fingerprint) : f.sealed.summary = f.summary := by
  cases f
  simp only [Fingerprint.summary, Fingerprint.sealed]

theorem fingerprint_id (n : Network) : n.fingerprint.id = n.fingerprint.summary.hashText := by
  unfold Network.fingerprint
  rw [summary_sealed]
  rfl

theorem fingerprint_hashes (n : Network) :
    n.fingerprint.vertexHash = n.vertexListing.hashText ∧
      n.fingerprint.topologyHash = n.topologyListing.hashText ∧
      n.fingerprint.costHash = n.costListing.hashText ∧
      n.fingerprint.blockedHash = n.blockedListing.hashText := ⟨rfl, rfl, rfl, rfl⟩

/-- A network that has another's fingerprint has its listings, or texts collide. -/
theorem listings_of_verify (verified : n.verify m.fingerprint = true) :
    (n.vertexListing = m.vertexListing ∧ n.topologyListing = m.topologyListing ∧ n.costListing = m.costListing ∧
      n.blockedListing = m.blockedListing) ∨ n.Collides m := by
  have ids : n.fingerprint.id = m.fingerprint.id := of_decide_eq_true verified
  rw [fingerprint_id, fingerprint_id] at ids
  refine or_iff_not_imp_right.mpr fun apart => ?_
  simp only [Collides, not_or] at apart
  obtain ⟨vertices, topologies, costs, blocked, summaries⟩ := apart
  have same := (eq_or_collides (floatless_summary _) (floatless_summary _) ids).resolve_right summaries
  simp only [Fingerprint.summary, Value.object.injEq, List.cons.injEq, Prod.mk.injEq, Value.text.injEq,
    true_and, and_true] at same
  obtain ⟨_, _, _, _, hashes⟩ := same
  obtain ⟨vertexHash, topologyHash, costHash, blockedHash⟩ := n.fingerprint_hashes
  obtain ⟨vertexHash', topologyHash', costHash', blockedHash'⟩ := m.fingerprint_hashes
  rw [vertexHash, topologyHash, costHash, blockedHash, vertexHash', topologyHash', costHash', blockedHash'] at hashes
  refine ⟨?_, ?_, ?_, ?_⟩
  · exact (eq_or_collides n.floatless_vertexListing m.floatless_vertexListing hashes.1).resolve_right vertices
  · exact (eq_or_collides n.floatless_topologyListing m.floatless_topologyListing hashes.2.1).resolve_right
      topologies
  · exact (eq_or_collides n.floatless_costListing m.floatless_costListing hashes.2.2.1).resolve_right costs
  · exact (eq_or_collides n.floatless_blockedListing m.floatless_blockedListing hashes.2.2.2).resolve_right
      blocked

/-- The texts that are hashed are those of lists of numbers and flags, so networks have the same texts
exactly if they are in the same state. One in the same state has the other's fingerprint, and one that has
it is in the same state, short of different texts of one hash. -/
theorem fingerprint_covers (built : n.Built) (built' : m.Built) :
    (n.vertexListing.bytes = m.vertexListing.bytes ∧ n.topologyListing.bytes = m.topologyListing.bytes ∧
        n.costListing.bytes = m.costListing.bytes ∧ n.blockedListing.bytes = m.blockedListing.bytes ↔
      n.SameState m) ∧
    (n.SameState m → n.verify m.fingerprint = true) ∧
      (n.verify m.fingerprint = true → n.SameState m ∨ n.Collides m) := by
  have formed := built.wellFormed
  have formed' := built'.wellFormed
  refine ⟨?_, fun same => ?_, fun verified => ?_⟩
  · rw [bytes_inj n.floatless_vertexListing m.floatless_vertexListing,
      bytes_inj n.floatless_topologyListing m.floatless_topologyListing,
      bytes_inj n.floatless_costListing m.floatless_costListing,
      bytes_inj n.floatless_blockedListing m.floatless_blockedListing, listings_eq_iff formed formed']
  · rw [verify, SameState.fingerprint formed formed' same, decide_eq_true rfl]
  · exact (listings_of_verify verified).imp_left (listings_eq_iff formed formed').mp

/-- A way there and back and one that ends at a blocked vertex, under two costs. -/
def tariff (cost inverse : Binary64) : Network :=
  (ofConnections [⟨1, 2, 12, .bidirectional, cost, inverse⟩,
    ⟨2, 3, 23, .sourceToTarget, .infinity, .nan⟩]).1.blockEach [3]

/-- The sign of a zero does not show in a fingerprint, a cost that is never travelled does. -/
theorem fingerprint_covers_tariff :
    (∀ cost inverse, (tariff cost inverse).Built) ∧
      (tariff .zero .infinity).verify (tariff .negativeZero .infinity).fingerprint = true ∧
      (tariff .zero .infinity).verify (tariff .zero .nan).fingerprint = false := by
  have built (cost inverse : Binary64) : (tariff cost inverse).Built := (built_ofConnections _).blockEach [3]
  have zeros := fingerprint_covers (built .zero .infinity) (built .negativeZero .infinity)
  have inverses := fingerprint_covers (built .zero .infinity) (built .zero .nan)
  refine ⟨built, zeros.2.1 (by decide +kernel), ?_⟩
  rw [← Bool.not_eq_true]
  intro verified
  have apart : ¬((tariff .zero .infinity).SameState (tariff .zero .nan) ∨
      (tariff .zero .infinity).Collides (tariff .zero .nan)) := by decide +kernel
  exact apart (inverses.2.2 verified)

end Network

end FeatureNet
