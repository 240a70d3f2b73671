import FeatureNet.Proofs.AgreeingNetworks
import FeatureNet.Proofs.ScanOrder
import Mathlib.Order.Defs.Unbundled

namespace FeatureNet

open Binary64 Network

namespace PathTree

/-- The root comes first, a nearer vertex before a farther one, and of two vertices at one distance that
one whose edge leaves the sooner vertex, or leaves the same vertex at an earlier place of its list. Which
edge a vertex has hangs on the order in turn, but the edges lead back to the root. -/
inductive Sooner (t : PathTree) (n : Network) (root : FeatureId) : FeatureId → FeatureId → Prop
  | first {w} : t.contains w = true → w ≠ root → Sooner t n root root w
  | nearer {v w d d'} : t.distance? v = some d → t.distance? w = some d' → d < d' → Sooner t n root v w
  | led {v w d d' u u' edge edge'} : t.distance? v = some d → t.distance? w = some d' → d.Same d' →
      t.lead? n v = some (u, edge) → t.lead? n w = some (u', edge') → Sooner t n root u u' → Sooner t n root v w
  | listed {v w d d' u edge edge'} : t.distance? v = some d → t.distance? w = some d' → d.Same d' →
      t.lead? n v = some (u, edge) → t.lead? n w = some (u, edge') →
      (n.outgoing u).idxOf edge < (n.outgoing u).idxOf edge' → Sooner t n root v w

/-- An edge leads from a vertex of the tree to another at the other's distance. -/
def Attains (t : PathTree) (n : Network) (u edge v : FeatureId) : Prop :=
  ∃ e du d, t.contains u = true ∧ edge ∈ n.outgoing u ∧ n.edge? edge = some e ∧ e.opposite u = v ∧
    t.distance? u = some du ∧ t.distance? v = some d ∧ (du + e.cost).Same d

variable {t : PathTree} {n : Network} {root u v w edge : FeatureId} {order : List FeatureId} {d d' : Binary64}
  {scan scan' : FeatureId × FeatureId}

/-- Of two vertices at one distance the one that was led to first was visited first. -/
theorem Timed.lt_of_scans (timed : t.Timed n root order (n.scans order)) (spans : t.Spans n root order)
    (atV : t.distance? v = some d) (atW : t.distance? w = some d') (same : d.Same d')
    (lead : t.lead? n v = some scan) (lead' : t.lead? n w = some scan')
    (earlier : (n.scans order).idxOf scan < (n.scans order).idxOf scan') : order.idxOf v < order.idxOf w := by
  rw [timed.before_iff spans atV atW, time_of_lead lead, time_of_lead lead']
  exact .inr ⟨same.magnitude, Nat.succ_lt_succ earlier⟩

/-- What comes sooner was visited sooner. -/
theorem Sooner.visited (formed : n.WellFormed) (timed : t.Timed n root order (n.scans order))
    (spans : t.Spans n root order) (sooner : t.Sooner n root v w) :
    v ∈ order ∧ w ∈ order ∧ order.idxOf v < order.idxOf w := by
  have reached {v : FeatureId} {d : Binary64} (atV : t.distance? v = some d) : v ∈ order :=
    spans.reached.mpr ⟨d, atV⟩
  induction sooner with
  | first contained notRoot =>
    have member := spans.contains.mp contained
    exact ⟨spans.rooted, member, timed.root_first formed spans member notRoot⟩
  | nearer atV atW less =>
    refine ⟨reached atV, reached atW, (timed.before_iff spans atV atW).mpr (.inl ?_)⟩
    exact (lt_iff_magnitude (spans.isCost_distance atV) (spans.isCost_distance atW)).mp less
  | led atV atW same lead lead' _ ih =>
    refine ⟨reached atV, reached atW, timed.lt_of_scans spans atV atW same lead lead' ?_⟩
    exact (idxOf_scans_lt_iff spans.nodup (timed.led lead) (timed.led lead')).mpr (.inl ih.2.2)
  | listed atV atW same lead lead' place =>
    refine ⟨reached atV, reached atW, timed.lt_of_scans spans atV atW same lead lead' ?_⟩
    exact (idxOf_scans_lt_iff spans.nodup (timed.led lead) (timed.led lead')).mpr (.inr ⟨rfl, place⟩)

/-- And what was visited sooner comes sooner: its edge was scanned earlier, at a vertex visited before. -/
theorem Timed.sooner (formed : n.WellFormed) (timed : t.Timed n root order (n.scans order))
    (spans : t.Spans n root order) (atV : v ∈ order) (atW : w ∈ order)
    (before : order.idxOf v < order.idxOf w) : t.Sooner n root v w := by
  induction place : order.idxOf w using Nat.strong_induction_on generalizing v w with
  | h place ih =>
    obtain ⟨d, distance⟩ := spans.reached.mp atV
    obtain ⟨d', distance'⟩ := spans.reached.mp atW
    have costV := spans.isCost_distance distance
    have costW := spans.isCost_distance distance'
    rcases (timed.before_iff spans distance distance').mp before with less | ⟨equal, earlier⟩
    · exact .nearer distance distance' ((lt_iff_magnitude costV costW).mpr less)
    · have notRoot := timed.ne_root_of_later earlier
      by_cases atRoot : v = root
      · rw [atRoot]
        exact .first (spans.contains.mpr atW) notRoot
      · obtain ⟨u, edge, e, du, step⟩ := spans.parent distance atRoot
        obtain ⟨u', edge', e', du', step'⟩ := spans.parent distance' notRoot
        have lead := step.lead? formed
        have lead' := step'.lead? formed
        have same : d.Same d' :=
          .inl (ext_parts ((spans.walked distance).2.1.trans (spans.walked distance').2.1.symm) equal)
        rw [time_of_lead lead, time_of_lead lead', Nat.add_lt_add_iff_right,
          idxOf_scans_lt_iff spans.nodup (timed.led lead) (timed.led lead')] at earlier
        rcases earlier with sooner | ⟨rfl, listed⟩
        · exact .led distance distance' same lead lead'
            (ih _ (place ▸ step'.earlier atW) step.visited step'.visited sooner rfl)
        · exact .listed distance distance' same lead lead' listed

/-- The edge of a vertex is the first of those that lead to it at its distance. -/
theorem Timed.first_attaining (formed : n.WellFormed) (timed : t.Timed n root order (n.scans order))
    (spans : t.Spans n root order) (atV : v ∈ order) (notRoot : v ≠ root) :
    ∃ u edge, t.predecessor? v = some (some edge) ∧ t.Attains n u edge v ∧ ∀ u' edge', t.Attains n u' edge' v →
      t.Sooner n root u u' ∨ u = u' ∧ (n.outgoing u).idxOf edge ≤ (n.outgoing u).idxOf edge' := by
  obtain ⟨d, distance⟩ := spans.reached.mp atV
  obtain ⟨u, edge, e, du, step⟩ := spans.parent distance notRoot
  have lead := step.lead? formed
  refine ⟨u, edge, step.predecessor, ⟨e, du, d, spans.contains.mpr step.visited, step.listed, step.found,
    step.across, step.distance, distance, .inl step.sum.symm⟩, fun u' edge' attains => ?_⟩
  obtain ⟨e', du', d', contained, listed, found, across, atU, atV', same⟩ := attains
  cases distance.symm.trans atV'
  have visited := spans.contains.mp contained
  have scanned : (u', edge') ∈ n.scans order := mem_scans.mpr ⟨visited, listed⟩
  have first := timed.earliest lead distance (u', edge') scanned
    ⟨e', du', found, across, atU, Nat.le_of_eq same.magnitude⟩
  rcases Nat.lt_or_eq_of_le first with earlier | equal
  · rcases (idxOf_scans_lt_iff spans.nodup (timed.led lead) scanned).mp earlier with before | ⟨rfl, place⟩
    · exact .inl (timed.sooner formed spans step.visited visited before)
    · exact .inr ⟨rfl, Nat.le_of_lt place⟩
  · cases (List.idxOf_inj (timed.led lead)).mp equal
    exact .inr ⟨rfl, Nat.le_refl _⟩

/-- The order of the visits is total, and strict. -/
theorem Timed.strictTotal (formed : n.WellFormed) (timed : t.Timed n root order (n.scans order))
    (spans : t.Spans n root order) :
    IsStrictTotalOrder {v // t.contains v = true} fun v w => t.Sooner n root v w where
  irrefl v sooner := Nat.lt_irrefl _ (sooner.visited formed timed spans).2.2
  trans u v w sooner sooner' := by
    obtain ⟨atU, _, before⟩ := sooner.visited formed timed spans
    obtain ⟨_, atW, before'⟩ := sooner'.visited formed timed spans
    exact timed.sooner formed spans atU atW (Nat.lt_trans before before')
  trichotomous v w notSooner notLater := by
    have atV := spans.contains.mp v.property
    have atW := spans.contains.mp w.property
    rcases Nat.lt_trichotomy (order.idxOf v.val) (order.idxOf w.val) with before | same | after
    · exact absurd (timed.sooner formed spans atV atW before) notSooner
    · exact Subtype.ext ((List.idxOf_inj atV).mp same)
    · exact absurd (timed.sooner formed spans atW atV after) notLater

end PathTree

namespace Network

/-- Ties in the tree of cheapest paths: coming sooner puts the vertices of the tree in a strict total order, and
every vertex but the root has the first edge that leads to it at its distance, by the vertices that these edges
leave and, at one vertex, by their places in its list. -/
theorem cheapestTree_ties {n : Network} (built : n.Built) (root : FeatureId) :
    IsStrictTotalOrder {v // (n.cheapestTree root).contains v = true}
        (fun v w => (n.cheapestTree root).Sooner n root v w) ∧
      ∀ v, (n.cheapestTree root).contains v = true → v ≠ root →
        ∃ u edge, (n.cheapestTree root).predecessor? v = some (some edge) ∧
          (n.cheapestTree root).Attains n u edge v ∧
          ∀ u' edge', (n.cheapestTree root).Attains n u' edge' v →
            (n.cheapestTree root).Sooner n root u u' ∨
              u = u' ∧ (n.outgoing u).idxOf edge ≤ (n.outgoing u).idxOf edge' := by
  have formed := built.wellFormed
  cases known : n.containsVertex root with
  | false =>
    have empty : IsEmpty {v // (n.cheapestTree root).contains v = true} := by
      rw [cheapestTree, known]
      exact ⟨fun v => Bool.noConfusion v.property⟩
    exact ⟨inferInstance, fun v contained => (empty.false ⟨v, contained⟩).elim⟩
  | true =>
    obtain ⟨order, spans, timed⟩ := exists_timed formed known
    exact ⟨timed.strictTotal formed spans, fun v contained notRoot =>
      timed.first_attaining formed spans (spans.contains.mp contained) notRoot⟩

/-- Three vertices at one distance: one is there by rounding, one over connections that cost nothing. -/
def rounded : Network := (ofConnections
  [.directed 1 3 13 ⟨0x3FB999999999999A⟩, .directed 3 5 35 ⟨0x3FC999999999999A⟩,
    .directed 1 6 16 ⟨0x3FD3333333333334⟩, .directed 5 7 57 zero, .directed 6 7 67 zero,
    .directed 6 7 670 zero]).1

theorem cheapestTree_ties_rounded :
    rounded.Built ∧ (rounded.cheapestTree 1).contains 7 = true ∧ (7 : FeatureId) ≠ 1 ∧
      (rounded.cheapestTree 1).predecessor? 7 = some (some 67) ∧
      (rounded.cheapestTree 1).Attains rounded 5 57 7 ∧ (rounded.cheapestTree 1).Sooner rounded 1 6 5 := by
  have built : rounded.Built := built_ofConnections _
  have contained : (rounded.cheapestTree 1).contains 7 = true := by decide +kernel
  have other : (7 : FeatureId) ≠ 1 := by decide
  have reached : (rounded.cheapestTree 1).predecessor? 7 = some (some 67) := by decide +kernel
  have attains : (rounded.cheapestTree 1).Attains rounded 5 57 7 :=
    ⟨⟨57, 5, 7, false, zero, zero⟩, ⟨0x3FD3333333333334⟩, ⟨0x3FD3333333333334⟩, by decide +kernel, by decide +kernel,
      by decide +kernel, by decide +kernel, by decide +kernel, by decide +kernel, by decide +kernel⟩
  obtain ⟨_, first⟩ := cheapestTree_ties built 1
  obtain ⟨u, edge, reached', ⟨e, _, _, _, _, found, across, _⟩, least⟩ := first 7 contained other
  cases reached.symm.trans reached'
  have recorded : rounded.edge? 67 = some ⟨67, 6, 7, false, zero, zero⟩ := by decide +kernel
  cases recorded.symm.trans found
  have leaves : u = 6 := by
    unfold Edge.opposite at across
    split at across
    · next source => exact source
    · exact absurd across (by decide)
  subst leaves
  rcases least 5 57 attains with sooner | ⟨same, _⟩
  · exact ⟨built, contained, other, reached, attains, sooner⟩
  · exact absurd same (by decide)

end Network

end FeatureNet
