import FeatureNet.Proofs.TreePaths
import FeatureNet.Proofs.UnsignedZeros

namespace FeatureNet

open Binary64 Network

namespace Network

/-- A path that tells again what a tree tells of a vertex, and of every vertex on the way to it. The
distance is added up from zero and the cost of the path from the negative zero, which shows only where
nothing but negative zeros is added. -/
structure Retraces (n : Network) (t : PathTree) (root v : FeatureId) (d : Binary64) (p : Path) : Prop where
  first : p.steps.head? = some ⟨root, none⟩
  last : p.end? = some v
  loopless : p.vertices.Nodup
  crosses : p.steps.IsChain fun a b => n.Crosses a.vertex b
  cost : (n.pathCost p).Unsigns d
  passed {before s after} : p.steps = before ++ s :: after → n.pathTo t s.vertex = ⟨before ++ [s]⟩
  farther : p.vertices.Pairwise fun u w => ∃ du dw, t.distance? u = some du ∧ t.distance? w = some dw ∧ du ≤ dw

variable {n : Network} {t : PathTree} {root v : FeatureId} {order : List FeatureId} {d : Binary64}
  {back : List Step}

/-- Going back from a vertex of a finished tree comes to no vertex farther away. -/
theorem WayBack.nearer (formed : n.WellFormed) (spans : t.Spans n root order) (way : n.WayBack t root v back)
    (atV : t.distance? v = some d) :
    ∀ s ∈ back ++ [(⟨root, none⟩ : Step)], ∃ ds, t.distance? s.vertex = some ds ∧ ds ≤ d := by
  have own {v : FeatureId} {d : Binary64} (atV : t.distance? v = some d) : d ≤ d :=
    (le_iff_magnitude (spans.isCost_distance atV) (spans.isCost_distance atV)).mpr (Nat.le_refl _)
  induction way generalizing d with
  | arrived =>
    intro s member
    rw [List.mem_singleton.mp member]
    exact ⟨d, atV, own atV⟩
  | @step v edge e back notRoot reached found _ ih =>
    obtain ⟨du, step⟩ := spans.parent_of_recorded formed atV notRoot reached found
    have costD := spans.isCost_distance atV
    have costU := spans.isCost_distance step.distance
    have shorter : du.magnitude ≤ d.magnitude := step.sum ▸ magnitude_le_add costU (formed.cost found)
    intro s member
    rcases List.mem_cons.mp member with rfl | later
    · exact ⟨d, atV, own atV⟩
    · obtain ⟨ds, atS, le⟩ := ih step.distance s later
      have costS := spans.isCost_distance atS
      exact ⟨ds, atS, (le_iff_magnitude costS costD).mpr
        (Nat.le_trans ((le_iff_magnitude costS costU).mp le) shorter)⟩

/-- So along a path of the tree the distances do not fall. -/
theorem WayBack.farther (formed : n.WellFormed) (spans : t.Spans n root order) (way : n.WayBack t root v back)
    (atV : t.distance? v = some d) :
    (⟨⟨root, none⟩ :: back.reverse⟩ : Path).vertices.Pairwise fun u w => ∃ du dw,
      t.distance? u = some du ∧ t.distance? w = some dw ∧ du ≤ dw := by
  rw [Path.vertices, turned_eq, List.pairwise_map, List.pairwise_reverse]
  induction way generalizing d with
  | arrived => exact List.pairwise_singleton ..
  | @step v edge e back notRoot reached found way ih =>
    obtain ⟨du, step⟩ := spans.parent_of_recorded formed atV notRoot reached found
    have nearer := (way.step notRoot reached found).nearer formed spans atV
    refine List.pairwise_cons.mpr ⟨fun a member => ?_, ih step.distance⟩
    obtain ⟨da, atA, le⟩ := nearer a (List.mem_cons_of_mem _ member)
    exact ⟨da, d, atA, atV, le⟩

/-- A distance is the cost of the path, but for the sign of a zero. -/
theorem unsigns_distance (formed : n.WellFormed) (spans : t.Spans n root order) (atV : t.distance? v = some d)
    {steps : List Step} (walk : n.Walk root steps v d) : (n.pathCost ⟨⟨root, none⟩ :: steps⟩).Unsigns d := by
  rw [unsigns_iff (formed.isCost_pathCost _), (spans.walked atV).2.1]
  exact ⟨walk.magnitude_pathCost formed, Bool.noConfusion⟩

/-- The tree of a vertex, the paths of the tree and their costs agree: to a vertex of the tree leads a path
without repeats over listed edges; what it costs is the vertex's distance, the path to every vertex on it is its
beginning up to there, and distances do not fall along it. To no other vertex there is a path. -/
theorem pathTo_retraces (built : n.Built) (root v : FeatureId) :
    ((n.cheapestTree root).contains v = true → ∃ d, (n.cheapestTree root).distance? v = some d ∧
        n.Retraces (n.cheapestTree root) root v d (n.pathTo (n.cheapestTree root) v)) ∧
      ((n.cheapestTree root).contains v = false → n.pathTo (n.cheapestTree root) v = .empty) := by
  have formed := built.wellFormed
  refine ⟨fun contained => ?_, fun missing => ?_⟩
  · cases known : n.containsVertex root with
    | false =>
      rw [cheapestTree, known] at contained
      cases contained
    | true =>
      obtain ⟨order, spans⟩ := exists_spans formed known
      obtain ⟨d, atV⟩ := spans.reached.mp (spans.contains.mp contained)
      obtain ⟨steps, way, walk, _⟩ := spans.exists_wayBack formed atV
      have path := way.pathTo spans.root_eq contained
      have rooted := spans.contains.mpr spans.rooted
      refine ⟨d, atV, ?_⟩
      rw [path]
      refine ⟨rfl, way.end?, way.nodup_vertices, ?_, ?_,
        fun split => way.pathTo_passed spans.root_eq rooted split, way.farther formed spans atV⟩
      · rw [List.reverse_reverse]
        exact walk.isChain none
      · rw [List.reverse_reverse]
        exact unsigns_distance formed spans atV walk
  · rcases n.pathTo_cases (n.cheapestTree root) v with ⟨_, _, _, contained, _⟩ | ⟨path, _⟩
    · cases missing.symm.trans contained
    · exact path

/-- Three connections whose costs add up to more from the left than from the right; the middle one is travelled
against its direction. -/
def decimals : Network := (ofConnections
  [.directed 1 2 12 ⟨0x3FB999999999999A⟩, .bidirectional 3 2 32 ⟨0x3FC999999999999A⟩,
    .directed 3 4 34 ⟨0x3FD3333333333333⟩]).1

theorem pathTo_retraces_decimals :
    decimals.Built ∧ (decimals.cheapestTree 1).distance? 4 = some ⟨0x3FE3333333333334⟩ ∧
      decimals.Retraces (decimals.cheapestTree 1) 1 4 ⟨0x3FE3333333333334⟩
        ⟨[⟨1, none⟩, ⟨2, some 12⟩, ⟨3, some 32⟩, ⟨4, some 34⟩]⟩ ∧
      decimals.pathTo (decimals.cheapestTree 1) 9 = .empty := by
  have built : decimals.Built := built_ofConnections _
  have distance : (decimals.cheapestTree 1).distance? 4 = some ⟨0x3FE3333333333334⟩ := by decide +kernel
  have path : decimals.pathTo (decimals.cheapestTree 1) 4 =
      ⟨[⟨1, none⟩, ⟨2, some 12⟩, ⟨3, some 32⟩, ⟨4, some 34⟩]⟩ := by decide +kernel
  obtain ⟨d, atFour, retraces⟩ := (pathTo_retraces built 1 4).1 (by decide +kernel)
  cases distance.symm.trans atFour
  exact ⟨built, distance, path ▸ retraces, (pathTo_retraces built 1 9).2 (by decide +kernel)⟩

end Network

end FeatureNet
