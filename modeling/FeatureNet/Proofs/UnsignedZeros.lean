import FeatureNet.Proofs.FingerprintedStates
import FeatureNet.Proofs.FoundDetours
import FeatureNet.Proofs.UsableEdges

namespace FeatureNet

open Binary64 Network

/-- A number, or zero in place of the negative zero. -/
def Binary64.Unsigns (x y : Binary64) : Prop := y = x ∨ x = negativeZero ∧ y = zero

instance (x y : Binary64) : Decidable (x.Unsigns y) := inferInstanceAs (Decidable (_ ∨ _))

namespace Binary64

variable {x y x' y' : Binary64}

theorem Unsigns.same (unsigns : x.Unsigns y) : x.Same y := by
  rcases unsigns with rfl | ⟨rfl, rfl⟩
  · exact .inl rfl
  · decide

theorem Unsigns.isCost (unsigns : x.Unsigns y) (cost : isCost x) : Network.isCost y := by
  rcases unsigns with rfl | ⟨_, rfl⟩
  · exact cost
  · exact isCost_zero

/-- Of a cost nothing but a sign can be lost. -/
theorem unsigns_iff (cost : isCost x) :
    x.Unsigns y ↔ x.magnitude = y.magnitude ∧ (y.negative = true → x.negative = true) := by
  have zeros : negativeZero.magnitude = 0 ∧ negativeZero.negative = true ∧ zero.magnitude = 0 ∧
    zero.negative = false := by decide
  constructor
  · rintro (rfl | ⟨rfl, rfl⟩)
    · exact ⟨rfl, id⟩
    · decide
  · rintro ⟨magnitude, signed⟩
    cases signX : x.negative with
    | false =>
      have signY : y.negative = false := by
        rw [← Bool.not_eq_true]
        exact fun sign => absurd (signed sign) (by rw [signX]; decide)
      exact .inl (ext_parts (signY.trans signX.symm) magnitude.symm)
    | true =>
      have none := (isCost_iff.mp cost).2 signX
      cases signY : y.negative with
      | true => exact .inl (ext_parts (signY.trans signX.symm) magnitude.symm)
      | false =>
        exact .inr ⟨ext_parts (signX.trans zeros.2.1.symm) (none.trans zeros.1.symm),
          ext_parts (signY.trans zeros.2.2.2.symm) (magnitude.symm.trans (none.trans zeros.2.2.1.symm))⟩

theorem Unsigns.add (costX : Network.isCost x) (costY : Network.isCost y) (unsigns : x.Unsigns x')
    (unsigns' : y.Unsigns y') : (x + y).Unsigns (x' + y') := by
  obtain ⟨magnitude, sign⟩ := add_parts costX costY
  obtain ⟨magnitude', sign'⟩ := add_parts (unsigns.isCost costX) (unsigns'.isCost costY)
  obtain ⟨magnitudeX, signedX⟩ := (unsigns_iff costX).mp unsigns
  obtain ⟨magnitudeY, signedY⟩ := (unsigns_iff costY).mp unsigns'
  rw [unsigns_iff (isCost_add costX costY)]
  constructor
  · rw [magnitude, magnitude', units, units, units, units, magnitudeX, magnitudeY]
  · rw [sign, sign', Bool.and_eq_true, Bool.and_eq_true]
    exact fun both => ⟨signedX both.1, signedY both.2⟩

theorem zero_ne_negativeZero : zero ≠ negativeZero := by decide

theorem rank_zero : zero.rank = 0 := by decide

theorem rank_negativeZero : negativeZero.rank = -1 := by decide

/-- No cost comes before the negative zero, -/
theorem rank_negativeZero_le (cost : isCost x) : -1 ≤ x.rank := by
  unfold rank
  split
  · next negative =>
    rw [(isCost_iff.mp cost).2 negative]
    decide
  · omega

/-- and none but it before zero. -/
theorem rank_pos (cost : isCost x) (notNegative : x ≠ negativeZero) (some : x ≠ zero) : 0 < x.rank := by
  have low := rank_negativeZero_le cost
  rw [ne_eq, ← rank_inj, rank_negativeZero] at notNegative
  rw [ne_eq, ← rank_inj, rank_zero] at some
  omega

end Binary64

/-- An edge of the same cost, or of cost zero in place of the negative zero. -/
def Edge.Unsigns (e f : Edge) : Prop := f = { e with cost := f.cost } ∧ e.cost.Unsigns f.cost

instance (e f : Edge) : Decidable (e.Unsigns f) := inferInstanceAs (Decidable (_ ∧ _))

/-- A network that differs in nothing but some costs, which are zero in place of the negative zero. -/
structure Network.Unsigns (n m : Network) : Prop where
  vertices : m.vertices = n.vertices
  edges (id : FeatureId) : Option.Rel Edge.Unsigns (n.edge? id) (m.edge? id)

namespace Network

variable {n m : Network}

instance (n m : Network) : Decidable (n.Unsigns m) :=
  decidable_of_iff (m.vertices = n.vertices ∧ n.edges.keys = m.edges.keys ∧
      List.Forall₂ Edge.Unsigns n.edges.values m.edges.values)
    ⟨fun ⟨vertices, edges⟩ => ⟨vertices, IdMap.rel_get?_iff.mpr edges⟩,
      fun unsigns => ⟨unsigns.vertices, IdMap.rel_get?_iff.mp unsigns.edges⟩⟩

namespace Unsigns

theorem wellFormed (formed : n.WellFormed) (unsigns : n.Unsigns m) : m.WellFormed := by
  refine formed.recost unsigns.vertices fun id => ?_
  rcases rel_cases (unsigns.edges id) with ⟨none, none'⟩ | ⟨e, f, found, found', same⟩
  · rw [none, none']
    exact .none
  · rw [found, found']
    exact .some ⟨same.1, same.2.isCost⟩

theorem containsVertex (unsigns : n.Unsigns m) (v : FeatureId) : m.containsVertex v = n.containsVertex v := by
  unfold Network.containsVertex
  rw [unsigns.vertices]

theorem outgoing (unsigns : n.Unsigns m) (v : FeatureId) : m.outgoing v = n.outgoing v := by
  unfold Network.outgoing vertex?
  rw [unsigns.vertices]

theorem isBlocked (unsigns : n.Unsigns m) (v : FeatureId) : m.isBlocked v = n.isBlocked v := by
  unfold Network.isBlocked vertex?
  rw [unsigns.vertices]

theorem sameState (unsigns : n.Unsigns m) : n.SameState m where
  vertices v := (unsigns.containsVertex v).symm
  blocked v := (unsigns.isBlocked v).symm
  edges id := by
    rcases rel_cases (unsigns.edges id) with ⟨none, none'⟩ | ⟨e, f, found, found', same, cost⟩
    · rw [none, none']
      exact .none
    · rw [found, found', same]
      exact .some ⟨⟨rfl, rfl, rfl, rfl, cost.same⟩, .inl rfl⟩

theorem opposite (unsigns : n.Unsigns m) (id v : FeatureId) :
    (n.edge? id).map (·.opposite v) = (m.edge? id).map (·.opposite v) := by
  rcases rel_cases (unsigns.edges id) with ⟨none, none'⟩ | ⟨e, f, found, found', same, _⟩
  · rw [none, none']
  · rw [found, found', same]
    rfl

/-- From a distance without a sign the same is offered. -/
theorem relax (formed : n.WellFormed) (unsigns : n.Unsigns m) {d : Binary64} (cost : isCost d)
    (positive : d.negative = false) (u id : FeatureId) (s : Search) :
    Search.relax n u d s id = Search.relax m u d s id := by
  unfold Search.relax
  rcases rel_cases (unsigns.edges id) with ⟨none, none'⟩ | ⟨e, f, found, found', same, unsigned⟩
  · rw [none, none']
  · have costE := formed.cost found
    have offer := add_congr cost positive costE (unsigned.isCost costE) unsigned.same
    rw [found, found', same]
    dsimp only
    rw [offer, unsigns.isBlocked]
    rfl

theorem cheapestTree (formed : n.WellFormed) (unsigns : n.Unsigns m) (root : FeatureId) :
    m.cheapestTree root = n.cheapestTree root := by
  have offers : Search.Offers n fun d _ => isCost d ∧ d.negative = false := by
    intro d u id e here found _
    have costE := formed.cost found
    exact ⟨isCost_add here.1 costE, by rw [(add_parts here.1 costE).2, here.2, Bool.false_and]⟩
  have anything : Search.Offers m fun _ _ => True := fun _ _ _ _ _ _ _ => trivial
  have start : (Search.start root).Pools fun d _ => isCost d ∧ d.negative = false :=
    Search.pools_start (by decide)
  unfold Network.cheapestTree
  rw [unsigns.containsVertex, Search.run_congr_of offers anything (fun s d u here _ => ?_) start
    fun _ _ => trivial]
  unfold Search.visit
  rw [unsigns.outgoing]
  exact List.foldl_ext _ _ _ fun s id _ => unsigns.relax formed here.1 here.2 u id s

theorem cheapestPath (formed : n.WellFormed) (unsigns : n.Unsigns m) (source target : FeatureId) :
    m.cheapestPath source target = n.cheapestPath source target := by
  unfold Network.cheapestPath pathTo
  rw [unsigns.cheapestTree formed]
  split
  · rfl
  · rw [stepsBack_congr fun v edge _ _ => unsigns.opposite edge v]

/-- The costs of a path lose no more than a sign together. -/
theorem pathCost (formed : n.WellFormed) (unsigns : n.Unsigns m) (p : Path) :
    (n.pathCost p).Unsigns (m.pathCost p) := by
  unfold Network.pathCost Binary64.sum
  suffices general : ∀ (edges : List FeatureId) (total total' : Binary64), isCost total → total.Unsigns total' →
      ((edges.filterMap n.edgeCost?).foldl (· + ·) total).Unsigns
        ((edges.filterMap m.edgeCost?).foldl (· + ·) total') from
    general _ _ _ isCost_negativeZero (.inl rfl)
  intro edges
  induction edges with
  | nil => exact fun _ _ _ same => same
  | cons edge edges ih =>
    intro total total' cost same
    rcases rel_cases (unsigns.edges edge) with ⟨none, none'⟩ | ⟨e, f, found, found', _, unsigned⟩
    · rw [List.filterMap_cons_none (by rw [edgeCost?, none]; rfl),
        List.filterMap_cons_none (by rw [edgeCost?, none']; rfl)]
      exact ih _ _ cost same
    · have costE := formed.cost found
      rw [List.filterMap_cons_some (by rw [edgeCost?, found]; rfl),
        List.filterMap_cons_some (by rw [edgeCost?, found']; rfl)]
      exact ih _ _ (isCost_add cost costE) (same.add cost costE unsigned)

end Unsigns

end Network

/-- Scopes that name the same edges hide the same edges, whatever they cost. -/
theorem Hiding.Masks.unsigns {n m : Network} {h g : Hiding} (masks : h.Masks n) (masks' : g.Masks m)
    (unsigns : n.Unsigns m) (same : ∀ id, id ∈ h.named ↔ id ∈ g.named) : h.network.Unsigns g.network where
  vertices := by rw [masks.vertices, masks'.vertices, unsigns.vertices]
  edges id := by
    rw [masks.edges, masks'.edges]
    rcases rel_cases (unsigns.edges id) with ⟨none, none'⟩ | ⟨e, f, found, found', both⟩
    · rw [none, none']
      exact .none
    · rw [found, found']
      refine .some ?_
      simp only [← same]
      split
      · exact ⟨by rw [both.1], .inl rfl⟩
      · exact both

namespace Network.Unsigns

variable {n m : Network} {target : FeatureId} {accepted : List Path} {p q : Path}

theorem detour? (formed : n.WellFormed) (unsigns : n.Unsigns m) (accepted : List Path) (target : FeatureId)
    (spur : List Step × Step) :
    Ranking.detour? m accepted target spur = Ranking.detour? n accepted target spur := by
  obtain ⟨masks, named⟩ := Ranking.masks_hideRoot n accepted spur.1 spur.2
  obtain ⟨masks', named'⟩ := Ranking.masks_hideRoot m accepted spur.1 spur.2
  have under := masks.unsigns masks' unsigns fun id => by simp only [named, named', unsigns.outgoing]
  unfold Ranking.detour?
  dsimp only
  rw [under.cheapestPath (masks.wellFormed formed)]

theorem detours (formed : n.WellFormed) (unsigns : n.Unsigns m) (accepted : List Path) (target : FeatureId)
    (p : Path) : Ranking.detours m accepted target p = Ranking.detours n accepted target p :=
  List.filterMap_congr fun spur _ => unsigns.detour? formed accepted target spur

theorem found (formed : n.WellFormed) (unsigns : n.Unsigns m) (target : FeatureId) (accepted : List Path) :
    Ranking.found m target accepted = Ranking.found n target accepted := by
  suffices after : ∀ before, Ranking.foundAfter m target before accepted =
      Ranking.foundAfter n target before accepted from after []
  induction accepted with
  | nil => exact fun _ => rfl
  | cons base rest ih =>
    intro before
    rw [Ranking.foundAfter, Ranking.foundAfter, ih, unsigns.detours formed]

theorem waits_iff (formed : n.WellFormed) (unsigns : n.Unsigns m) :
    Ranking.Waits m target accepted p ↔ Ranking.Waits n target accepted p := by
  rw [Ranking.Waits, Ranking.Waits, ← Ranking.mem_found, ← Ranking.mem_found, unsigns.found formed]

end Network.Unsigns

/-- A detour gets before a path whose cost has lost its sign: its own has not, or is zero without a sign
all along and it was found first. The costs of whole paths are added up from the negative zero on, and the
pool puts that before the other zero. -/
def Ranking.Overtakes (n m : Network) (target : FeatureId) (accepted : List Path) (q p : Path) : Prop :=
  n.pathCost p = negativeZero ∧ m.pathCost p = zero ∧
    (m.pathCost q = negativeZero ∨
      n.pathCost q = zero ∧ (found n target accepted).idxOf q < (found n target accepted).idxOf p)

namespace Network.Unsigns

variable {n m : Network} {target : FeatureId} {accepted : List Path} {p q : Path}

theorem not_precedes (formed : n.WellFormed) (unsigns : n.Unsigns m)
    (overtakes : Ranking.Overtakes n m target accepted q p) : ¬Ranking.Precedes m target accepted p q := by
  obtain ⟨_, zeroP, signQ | ⟨zeroQ, earlier⟩⟩ := overtakes
  · rintro (less | ⟨equal, _⟩)
    · rw [zeroP, signQ, rank_zero, rank_negativeZero] at less
      omega
    · exact zero_ne_negativeZero (zeroP.symm.trans (equal.trans signQ))
  · have zeroQ' : m.pathCost q = zero := by
      rcases unsigns.pathCost formed q with same | ⟨signQ, _⟩
      · exact same.trans zeroQ
      · exact absurd (zeroQ.symm.trans signQ) zero_ne_negativeZero
    rintro (less | ⟨_, earlier'⟩)
    · rw [zeroP, zeroQ'] at less
      exact Int.lt_irrefl _ less
    · rw [unsigns.found formed] at earlier'
      omega

/-- What is taken before another detour is still taken before it, unless it is overtaken. -/
theorem precedes (formed : n.WellFormed) (unsigns : n.Unsigns m)
    (apart : (Ranking.found n target accepted).idxOf p ≠ (Ranking.found n target accepted).idxOf q)
    (precedes : Ranking.Precedes n target accepted p q) (kept : ¬Ranking.Overtakes n m target accepted q p) :
    Ranking.Precedes m target accepted p q := by
  unfold Ranking.Precedes
  rw [unsigns.found formed]
  rcases unsigns.pathCost formed p with sameP | ⟨signP, zeroP⟩
  · rcases unsigns.pathCost formed q with sameQ | ⟨signQ, zeroQ⟩
    · rw [sameP, sameQ]
      exact precedes
    · -- Nothing comes before the negative zero, so that is what the first costs, before and after.
      have signP : n.pathCost p = negativeZero := by
        rcases precedes with less | ⟨equal, _⟩
        · have low := rank_negativeZero_le (formed.isCost_pathCost p)
          rw [signQ, rank_negativeZero] at less
          omega
        · exact equal.trans signQ
      rw [sameP, signP, zeroQ]
      exact .inl (by decide)
  · have signless : m.pathCost q ≠ negativeZero := fun sign => kept ⟨signP, zeroP, .inl sign⟩
    by_cases zeroQ : m.pathCost q = zero
    · refine .inr ⟨zeroP.trans zeroQ.symm, ?_⟩
      rcases unsigns.pathCost formed q with sameQ | ⟨signQ, _⟩
      · by_contra notEarlier
        exact kept ⟨signP, zeroP, .inr ⟨sameQ.symm.trans zeroQ, by omega⟩⟩
      · rcases precedes with less | ⟨_, earlier⟩
        · rw [signP, signQ] at less
          exact absurd less (Int.lt_irrefl _)
        · exact earlier
    · have costQ := (unsigns.pathCost formed q).isCost (formed.isCost_pathCost q)
      rw [zeroP, rank_zero]
      exact .inl (rank_pos costQ signless zeroQ)

theorem next_iff (formed : n.WellFormed) (unsigns : n.Unsigns m) (next : Ranking.Next n target accepted p) :
    Ranking.Next m target accepted p ↔
      ∀ q, Ranking.Waits n target accepted q → ¬Ranking.Overtakes n m target accepted q p := by
  unfold Ranking.Next
  simp only [unsigns.waits_iff formed]
  constructor
  · rintro ⟨_, precedes⟩ q waits overtakes
    by_cases same : q = p
    · rw [same] at overtakes
      obtain ⟨_, zeroP, signP | ⟨_, earlier⟩⟩ := overtakes
      · exact zero_ne_negativeZero (zeroP.symm.trans signP)
      · exact Nat.lt_irrefl _ earlier
    · exact unsigns.not_precedes formed overtakes (precedes q waits same)
  · refine fun kept => ⟨next.1, fun q waits other => ?_⟩
    refine unsigns.precedes formed (fun same => other ?_) (next.2 q waits other) (kept q waits)
    exact ((List.idxOf_inj (Ranking.mem_found.mpr next.1.2)).mp same).symm

/-- The alternatives are the same exactly if none of them is overtaken when it is accepted. -/
theorem alternatives_eq_iff (formed : n.WellFormed) (unsigns : n.Unsigns m) (source target : FeatureId)
    (count : Nat) :
    (m.alternatives source target count).1 = (n.alternatives source target count).1 ↔
      ∀ before p after, (n.alternatives source target count).1 = before ++ p :: after → before ≠ [] →
        ∀ q, Ranking.Waits n target before q → ¬Ranking.Overtakes n m target before q p := by
  have ranked := alternatives_ranked formed source target count
  rw [eq_comm, ← ranked_iff (unsigns.wellFormed formed)]
  constructor
  · intro ranked' before p after split later
    exact (unsigns.next_iff formed (ranked.next split later)).mp (ranked'.next split later)
  · intro kept
    refine ⟨?_, ranked.most, fun {before p after} split later => ?_, fun some short q waits => ?_⟩
    · rw [unsigns.cheapestPath formed]
      exact ranked.first
    · exact (unsigns.next_iff formed (ranked.next split later)).mpr (kept before p after split later)
    · exact ranked.ended some short q ((unsigns.waits_iff formed).mp waits)

end Network.Unsigns

namespace Network

variable {n m : Network}

/-- A network that differs in the signs of zeros has the same fingerprint, the same trees and the same cheapest
paths. It has the same alternatives exactly if none of them, when it is accepted, is overtaken by a detour that
waits; so it has where no path costs the negative zero. -/
theorem unsigned_same_iff (built : n.Built) (unsigns : n.Unsigns m) :
    m.fingerprint = n.fingerprint ∧
      (∀ root, m.cheapestTree root = n.cheapestTree root) ∧
      (∀ source target, m.cheapestPath source target = n.cheapestPath source target) ∧
      ∀ source target count,
        ((m.alternatives source target count).1 = (n.alternatives source target count).1 ↔
          ∀ before p after, (n.alternatives source target count).1 = before ++ p :: after → before ≠ [] →
            ∀ q, Ranking.Waits n target before q → ¬Ranking.Overtakes n m target before q p) ∧
        ((∀ p, n.Admissible source target p → n.pathCost p ≠ negativeZero) →
          (m.alternatives source target count).1 = (n.alternatives source target count).1) := by
  have formed := built.wellFormed
  refine ⟨?_, unsigns.cheapestTree formed, unsigns.cheapestPath formed, fun source target count => ?_⟩
  · exact (SameState.fingerprint formed (unsigns.wellFormed formed) unsigns.sameState).symm
  · have same := unsigns.alternatives_eq_iff formed source target count
    refine ⟨same, fun signless => same.mpr fun before p after split _ q _ overtakes => ?_⟩
    cases known : n.containsVertex source with
    | false =>
      rw [alternatives_unknown known] at split
      exact absurd split.symm (by simp)
    | true =>
      obtain ⟨each, _⟩ := alternatives_sound formed known target count
      exact signless p (each p (split ▸ by simp)) overtakes.1

/-- Two edges beside each other and a way round, all of no cost; the edge before them and one of them may have
a sign. -/
def tollFree (free : Binary64) : Network := (ofConnections
  [⟨1, 2, 12, .sourceToTarget, free, .zero⟩, .directed 2 3 23 .zero, ⟨2, 3, 230, .sourceToTarget, free, .zero⟩,
    .directed 1 4 14 .zero, .directed 4 3 43 .zero]).1

/-- The way over the signed edges is found after the way round and taken before it; without the signs it is
overtaken, while the trees stay the same. -/
theorem unsigned_same_iff_tollFree :
    (tollFree negativeZero).Built ∧ (tollFree negativeZero).Unsigns (tollFree zero) ∧
      (tollFree zero).cheapestTree 1 = (tollFree negativeZero).cheapestTree 1 ∧
      ∃ before p after, ((tollFree negativeZero).alternatives 1 3 2).1 = before ++ p :: after ∧ before ≠ [] ∧
        ∃ q, Ranking.Waits (tollFree negativeZero) 3 before q ∧
          Ranking.Overtakes (tollFree negativeZero) (tollFree zero) 3 before q p := by
  have built : (tollFree negativeZero).Built := built_ofConnections _
  have unsigns : (tollFree negativeZero).Unsigns (tollFree zero) := by decide +kernel
  have apart : ((tollFree zero).alternatives 1 3 2).1 ≠ ((tollFree negativeZero).alternatives 1 3 2).1 := by
    decide +kernel
  obtain ⟨_, trees, _, alternatives⟩ := unsigned_same_iff built unsigns
  have overtaken := mt (alternatives 1 3 2).1.mpr apart
  simp only [not_forall, not_not] at overtaken
  obtain ⟨before, p, after, split, later, q, waits, overtakes⟩ := overtaken
  exact ⟨built, unsigns, trees 1, before, p, after, split, later, q, waits, overtakes⟩

/-- The signs do not show in the fingerprint, but in the alternatives. -/
theorem unsigned_not_same :
    (tollFree negativeZero).Built ∧ (tollFree zero).Built ∧
      (tollFree negativeZero).Unsigns (tollFree zero) ∧
      (tollFree zero).verify (tollFree negativeZero).fingerprint = true ∧
      ((tollFree negativeZero).alternatives 1 3 2).1.map (·.edges) = [[12, 23], [12, 230]] ∧
      ((tollFree zero).alternatives 1 3 2).1.map (·.edges) = [[12, 23], [14, 43]] ∧
      ((tollFree zero).alternatives 1 3 2).1 ≠ ((tollFree negativeZero).alternatives 1 3 2).1 := by
  have built (free : Binary64) : (tollFree free).Built := built_ofConnections _
  have unsigns : (tollFree negativeZero).Unsigns (tollFree zero) := by decide +kernel
  have same := SameState.fingerprint (built _).wellFormed (built _).wellFormed unsigns.sameState
  refine ⟨built _, built _, unsigns, ?_, by decide +kernel, by decide +kernel, by decide +kernel⟩
  rw [verify, same, decide_eq_true rfl]

end Network

end FeatureNet
