import FeatureNet.Proofs.BlockedVertices
import FeatureNet.Proofs.Detours
import FeatureNet.Proofs.ScanOrder

namespace FeatureNet

open Binary64 Network

/-- The trees of one root in a network and in a narrower one, with the orders of their visits. -/
structure Compared (n m : Network) (root : FeatureId) (t t' : PathTree) (order order' : List FeatureId) :
    Prop where
  narrows : n.Narrows m
  formed : n.WellFormed
  formed' : m.WellFormed
  spans : t.Spans n root order
  spans' : t'.Spans m root order'
  timed : t.Timed n root order (n.scans order)
  timed' : t'.Timed m root order' (m.scans order')

/-- What holds between both trees of a vertex on a path that they share. No vertex gets nearer,
and an offer that is left was there before; so it keeps its distance and its lead, and stays
ahead of what it was ahead of. -/
structure Steady (n m : Network) (t t' : PathTree) (order order' : List FeatureId) (v : FeatureId) : Prop where
  reached : v ∈ order ∧ v ∈ order'
  distance : t'.distance? v = t.distance? v
  lead : t'.lead? m v = t.lead? n v
  ahead {w} : w ∈ order' → order.idxOf v < order.idxOf w → order'.idxOf v < order'.idxOf w

namespace Compared

variable {n m : Network} {root u v w edge : FeatureId} {e : Edge} {d d' du : Binary64}
  {t t' : PathTree} {order order' : List FeatureId} {scan scan' : FeatureId × FeatureId}

/-- No vertex gets nearer. -/
theorem farther (both : Compared n m root t t' order order') (atV : t'.distance? v = some d') :
    ∃ d, t.distance? v = some d ∧ d.magnitude ≤ d'.magnitude := by
  obtain ⟨finite, _, steps, walk⟩ := both.spans'.walked atV
  exact (both.spans.least both.formed (both.narrows.walk both.formed' walk finite).1 finite).2

/-- What is offered was scanned and offered before. -/
theorem offers (both : Compared n m root t t' order order') (atV : t'.distance? v = some d')
    (scanned : scan ∈ m.scans order') (offers : t'.Offers m scan v d') :
    scan ∈ n.scans order ∧ t.Offers n scan v d' := by
  obtain ⟨e, du', found, across, atScan, le⟩ := offers
  obtain ⟨du, atScan', near⟩ := both.farther atScan
  have costU := both.spans.isCost_distance atScan'
  have costU' := both.spans'.isCost_distance atScan
  have costE := both.formed'.cost found
  have edgeCost := magnitude_le_add_left costU' costE
  have less := magnitude_add_mono costU costU' costE near
  have finite := (both.spans'.walked atV).1
  refine ⟨mem_scans.mpr ⟨both.spans.reached.mpr ⟨du, atScan'⟩, ?_⟩,
    e, du, both.narrows.edges found (by omega), across, atScan', Nat.le_trans less le⟩
  exact both.narrows.outgoing scan.1 ▸ (mem_scans.mp scanned).2

theorem steady_root (both : Compared n m root t t' order order') : Steady n m t t' order order' root where
  reached := ⟨both.spans.rooted, both.spans'.rooted⟩
  distance := both.spans'.start.trans both.spans.start.symm
  lead := both.timed'.start.trans both.timed.start.symm
  ahead := by
    intro w atW before
    refine both.timed'.root_first both.formed' both.spans' atW ?_
    rintro rfl
    exact Nat.lt_irrefl _ before

/-- A scan at a steady vertex stays earlier than the scans that it was earlier than. -/
theorem earlier (both : Compared n m root t t' order order') (scan : FeatureId × FeatureId)
    (steady : Steady n m t t' order order' scan.1)
    (listed : scan.2 ∈ n.outgoing scan.1) (member : scan' ∈ n.scans order) (member' : scan' ∈ m.scans order')
    (before : (n.scans order).idxOf scan < (n.scans order).idxOf scan') :
    (m.scans order').idxOf scan < (m.scans order').idxOf scan' := by
  have scanned : scan ∈ n.scans order := mem_scans.mpr ⟨steady.reached.1, listed⟩
  have scanned' : scan ∈ m.scans order' :=
    mem_scans.mpr ⟨steady.reached.2, (both.narrows.outgoing _).symm ▸ listed⟩
  rw [idxOf_scans_lt_iff both.spans.nodup scanned member] at before
  rw [idxOf_scans_lt_iff both.spans'.nodup scanned' member', both.narrows.outgoing]
  exact before.imp_left (steady.ahead (mem_scans.mp member').1)

/-- The distance over an open step from a steady vertex is kept: the offer is still made, and nothing less. -/
theorem distance_step (both : Compared n m root t t' order order') (step : t.Parent n order v d u edge e du)
    (atV : t.distance? v = some d) (steady : Steady n m t t' order order' u) (found : m.edge? edge = some e)
    (free : m.isBlocked v = false) : t'.distance? v = some d := by
  have listed : edge ∈ m.outgoing u := (both.narrows.outgoing u).symm ▸ step.listed
  have walked := both.spans.walked atV
  obtain ⟨d', atV', le⟩ := both.spans'.settled steady.reached.2 edge listed e found (step.across.symm ▸ free) du
    (steady.distance.trans step.distance) (step.sum ▸ walked.1)
  rw [step.across] at atV'
  rw [← step.sum] at le
  obtain ⟨d'', atV'', ge⟩ := both.farther atV'
  cases atV.symm.trans atV''
  rw [atV', ext_parts ((both.spans'.walked atV').2.1.trans walked.2.1.symm) (Nat.le_antisymm le ge)]

/-- So is the lead: a scan that were earlier now would have been earlier before. -/
theorem lead_step (both : Compared n m root t t' order order') (step : t.Parent n order v d u edge e du)
    (atV : t.distance? v = some d) (notRoot : v ≠ root) (steady : Steady n m t t' order order' u)
    (found : m.edge? edge = some e) (atV' : t'.distance? v = some d) :
    t'.lead? m v = some (u, edge) := by
  have lead := step.lead? both.formed
  obtain ⟨first, leads, _, offers⟩ := both.spans'.exists_lead both.formed' atV' notRoot
  have member' := both.timed'.led leads
  obtain ⟨member, offered⟩ := both.offers atV' member' offers
  have scanned' : (u, edge) ∈ m.scans order' :=
    mem_scans.mpr ⟨steady.reached.2, (both.narrows.outgoing u).symm ▸ step.listed⟩
  have before := both.timed.earliest lead atV first member offered
  have after := both.timed'.earliest leads atV' (u, edge) scanned'
    ⟨e, du, found, step.across, steady.distance.trans step.distance, by rw [step.sum]⟩
  rcases Nat.lt_or_eq_of_le before with less | same
  · have := both.earlier (u, edge) steady step.listed member member' less
    omega
  · rw [leads, (List.idxOf_inj (both.timed.led lead)).mp same]

/-- And what the vertex was ahead of: that gets no nearer, and is led to by scans that were there before. -/
theorem ahead_step (both : Compared n m root t t' order order') (step : t.Parent n order v d u edge e du)
    (atV : t.distance? v = some d) (steady : Steady n m t t' order order' u) (atV' : t'.distance? v = some d)
    (lead' : t'.lead? m v = some (u, edge)) (atW : w ∈ order') (before : order.idxOf v < order.idxOf w) :
    order'.idxOf v < order'.idxOf w := by
  have lead := step.lead? both.formed
  obtain ⟨dw', atW'⟩ := both.spans'.reached.mp atW
  obtain ⟨dw, atDw, far⟩ := both.farther atW'
  have first := (both.timed.before_iff both.spans atV atDw).mp before
  rw [both.timed'.before_iff both.spans' atV' atW']
  rcases first with near | ⟨same, earlier⟩
  · exact .inl (by omega)
  · rcases Nat.lt_or_eq_of_le far with less | equal
    · exact .inl (by omega)
    · refine .inr ⟨same.trans equal, ?_⟩
      have notRoot := both.timed.ne_root_of_later earlier
      obtain ⟨own, leads, _⟩ := both.spans.exists_lead both.formed atDw notRoot
      obtain ⟨other, leads', _, offers⟩ := both.spans'.exists_lead both.formed' atW' notRoot
      have member' := both.timed'.led leads'
      obtain ⟨member, e', du', found', across, atOther, le⟩ := both.offers atW' member' offers
      have le' := both.timed.earliest leads atDw other member ⟨e', du', found', across, atOther, equal ▸ le⟩
      rw [PathTree.time_of_lead lead, PathTree.time_of_lead leads] at earlier
      have := both.earlier (u, edge) steady step.listed member member' (by omega)
      rw [PathTree.time_of_lead lead', PathTree.time_of_lead leads']
      omega

/-- An open step from a steady vertex leads to a steady vertex. -/
theorem steady_step (both : Compared n m root t t' order order') (step : t.Parent n order v d u edge e du)
    (atV : t.distance? v = some d) (notRoot : v ≠ root) (steady : Steady n m t t' order order' u)
    (found : m.edge? edge = some e) (free : m.isBlocked v = false) : Steady n m t t' order order' v := by
  have atV' := both.distance_step step atV steady found free
  have lead' := both.lead_step step atV notRoot steady found atV'
  exact ⟨⟨both.spans.reached.mpr ⟨d, atV⟩, both.spans'.reached.mpr ⟨d, atV'⟩⟩, atV'.trans atV.symm,
    lead'.trans (step.lead? both.formed).symm, both.ahead_step step atV steady atV' lead'⟩

/-- The way back from a vertex is the same in both trees if all its steps are open. -/
theorem wayBack (both : Compared n m root t t' order order') {back : List Step}
    (atV : t.distance? v = some d) (way : n.WayBack t root v back)
    (free : ∀ s ∈ back, m.isBlocked s.vertex = false)
    (same : ∀ s ∈ back, ∀ edge, s.edge = some edge → m.edge? edge = n.edge? edge) :
    Steady n m t t' order order' v ∧ m.WayBack t' root v back := by
  induction way generalizing d with
  | arrived => exact ⟨both.steady_root, .arrived⟩
  | @step v edge e back notRoot reached found _ ih =>
    obtain ⟨du, step⟩ := both.spans.parent_of_recorded both.formed atV notRoot reached found
    obtain ⟨steady, way'⟩ := ih step.distance (fun s member => free s (List.mem_cons_of_mem _ member))
      fun s member => same s (List.mem_cons_of_mem _ member)
    have open_ := (same _ (List.mem_cons_self ..) edge rfl).trans found
    have onward := both.steady_step step atV notRoot steady open_ (free _ (List.mem_cons_self ..))
    obtain ⟨_, predecessor, _⟩ := PathTree.lead?_eq_some.mp (onward.lead.trans (step.lead? both.formed))
    exact ⟨onward, way'.step notRoot predecessor open_⟩

end Compared

namespace Network

variable {n m : Network} {root v : FeatureId}

/-- A cheapest path that stays open stays the cheapest path, and none appears where there was none. -/
theorem Narrows.cheapestPath (narrows : n.Narrows m) (formed : n.WellFormed) (formed' : m.WellFormed)
    (root target : FeatureId)
    (free : ∀ v ∈ (n.cheapestPath root target).vertices, n.isBlocked v = false → m.isBlocked v = false)
    (same : ∀ edge ∈ (n.cheapestPath root target).edges, m.edge? edge = n.edge? edge) :
    m.cheapestPath root target = n.cheapestPath root target := by
  have vertices := narrows.vertices root
  cases known : n.containsVertex root with
  | false =>
    rw [known] at vertices
    unfold Network.cheapestPath cheapestTree
    rw [known, vertices]
    rfl
  | true =>
    obtain ⟨order, spans, timed⟩ := exists_timed formed known
    obtain ⟨order', spans', timed'⟩ := exists_timed formed' (vertices.trans known)
    have both : Compared n m root _ _ order order' := ⟨narrows, formed, formed', spans, spans', timed, timed'⟩
    unfold Network.cheapestPath at free same ⊢
    by_cases inside : target ∈ order
    · obtain ⟨d, atTarget⟩ := spans.reached.mp inside
      obtain ⟨steps, way, walk, _⟩ := spans.exists_wayBack formed atTarget
      have path := way.pathTo spans.root_eq (spans.contains.mpr inside)
      rw [path, List.reverse_reverse] at free same
      obtain ⟨steady, way'⟩ := both.wayBack atTarget way
        (fun s member => by
          have isStep := List.mem_reverse.mp member
          exact free _ (List.mem_cons_of_mem _ (List.mem_map_of_mem isStep)) (walk.unblocked s isStep))
        (fun s member edge atEdge => same edge (List.mem_filterMap.mpr
          ⟨s, List.mem_cons_of_mem _ (List.mem_reverse.mp member), atEdge⟩))
      rw [way'.pathTo spans'.root_eq (spans'.contains.mpr steady.reached.2), path]
    · have outside : target ∉ order' := by
        intro inside'
        obtain ⟨d', atTarget'⟩ := spans'.reached.mp inside'
        obtain ⟨d, atTarget, _⟩ := both.farther atTarget'
        exact inside (spans.reached.mpr ⟨d, atTarget⟩)
      rw [spans.pathTo_eq_empty inside, spans'.pathTo_eq_empty outside]

/-- The network with further vertices blocked and, as in a scope, further edges hidden. -/
def narrowed (n : Network) (vertices edges : List FeatureId) : Network :=
  (edges.foldl Hiding.hide (.ofNetwork (n.blockEach vertices))).network

theorem masks_narrowed (n : Network) (vertices edges : List FeatureId) :
    ∃ h : Hiding, h.network = n.narrowed vertices edges ∧ h.Masks (n.blockEach vertices) ∧
      ∀ id, id ∈ h.named ↔ id ∈ edges := by
  obtain ⟨masks, named⟩ := (Hiding.masks_ofNetwork (n.blockEach vertices)).hideAll edges
  refine ⟨_, rfl, masks, fun id => ?_⟩
  rw [named]
  exact or_iff_left (IdSet.not_mem_empty id)

theorem edge?_narrowed (n : Network) (vertices edges : List FeatureId) (id : FeatureId) :
    (n.narrowed vertices edges).edge? id =
      (n.edge? id).map fun e => if id ∈ edges then { e with cost := .infinity } else e := by
  obtain ⟨h, same, masks, named⟩ := masks_narrowed n vertices edges
  rw [← same, masks.edges, (n.blockEach_same vertices).2.2]
  simp only [named]

theorem isBlocked_narrowed (n : Network) (vertices edges : List FeatureId) (v : FeatureId) :
    (n.narrowed vertices edges).isBlocked v = true ↔
      n.isBlocked v = true ∨ v ∈ vertices ∧ n.containsVertex v = true := by
  obtain ⟨h, same, masks, _⟩ := masks_narrowed n vertices edges
  rw [← same, masks.isBlocked, isBlocked_blockEach]

theorem narrows_narrowed (n : Network) (vertices edges : List FeatureId) :
    n.Narrows (n.narrowed vertices edges) := by
  obtain ⟨h, same, masks, _⟩ := masks_narrowed n vertices edges
  obtain ⟨contains, outgoing, kept⟩ := n.blockEach_same vertices
  have first : n.Narrows (n.blockEach vertices) :=
    ⟨contains, outgoing, fun before => (isBlocked_blockEach ..).mpr (.inl before),
      fun found _ => (kept _).symm.trans found⟩
  exact same ▸ first.trans masks.narrows

/-- Blocking vertices and hiding edges, none of them on the cheapest path, leaves it the cheapest path, step by
step the same; and where there was no path there is none. -/
theorem cheapestPath_steady (built : n.Built) (source target : FeatureId) (vertices edges : List FeatureId)
    (offVertices : ∀ v ∈ vertices, v ∉ (n.cheapestPath source target).vertices)
    (offEdges : ∀ edge ∈ edges, edge ∉ (n.cheapestPath source target).edges) :
    (n.narrowed vertices edges).cheapestPath source target = n.cheapestPath source target := by
  have formed := built.wellFormed
  obtain ⟨h, same, masks, _⟩ := masks_narrowed n vertices edges
  have formed' := masks.wellFormed (built.blockEach vertices).wellFormed
  rw [same] at formed'
  refine (narrows_narrowed n vertices edges).cheapestPath formed formed' source target (fun v onPath free => ?_)
    fun edge onPath => ?_
  · rw [← Bool.not_eq_true, isBlocked_narrowed, free]
    rintro (blocked | ⟨named, _⟩)
    · cases blocked
    · exact offVertices v named onPath
  · have unnamed : edge ∉ edges := fun named => offEdges edge named onPath
    rw [edge?_narrowed]
    simp [unnamed]

/-- Three ways of one cost to the fourth vertex, by one of which the fifth one is reached. -/
def crossing : Network := (ofConnections
  [.directed 1 2 12 ⟨0x3FB999999999999A⟩, .directed 1 3 13 ⟨0x3FB999999999999A⟩,
    .directed 2 4 24 ⟨0x3FC999999999999A⟩, .directed 3 4 34 ⟨0x3FC999999999999A⟩,
    .directed 2 4 240 ⟨0x3FC999999999999A⟩, .bidirectional 4 5 45 ⟨0x3FD3333333333333⟩]).1

theorem cheapestPath_steady_crossing :
    crossing.Built ∧ crossing.cheapestPath 1 5 = ⟨[⟨1, none⟩, ⟨2, some 12⟩, ⟨4, some 24⟩, ⟨5, some 45⟩]⟩ ∧
      (∀ v ∈ [3, 9], v ∉ (crossing.cheapestPath 1 5).vertices) ∧
        (∀ edge ∈ [240, 34], edge ∉ (crossing.cheapestPath 1 5).edges) ∧
          (crossing.narrowed [3, 9] [240, 34]).cheapestPath 1 5 = crossing.cheapestPath 1 5 := by
  have built : crossing.Built := built_ofConnections _
  have offVertices : ∀ v ∈ [3, 9], v ∉ (crossing.cheapestPath 1 5).vertices := by decide +kernel
  have offEdges : ∀ edge ∈ [240, 34], edge ∉ (crossing.cheapestPath 1 5).edges := by decide +kernel
  exact ⟨built, by decide +kernel, offVertices, offEdges,
    cheapestPath_steady built 1 5 [3, 9] [240, 34] offVertices offEdges⟩

end Network

end FeatureNet
