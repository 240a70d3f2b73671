import FeatureNet.Proofs.RankedPaths
import Mathlib.Algebra.Order.BigOperators.Group.List
import Mathlib.Data.Fintype.List
import Mathlib.Data.Set.Card
import Mathlib.Data.Set.Finite.Range

namespace FeatureNet

open Binary64 Network

namespace Network

variable {n : Network} {source target : FeatureId} {steps rest passed : List Step} {first spur : Step}

def finiteEdges (n : Network) : List (FeatureId × Edge) := n.edges.entries.filter (·.2.cost.isFinite)

/-- The finite costs are whole numbers and their sum is at most 2 to the 53. No sum along a
path without repeats is rounded then, so the order of the sums from a spur on is that of
the sums from the source on. -/
structure WholeCosts (n : Network) : Prop where
  whole : ∀ e ∈ n.finiteEdges, unitsInOne ∣ e.2.cost.units
  bounded : (n.finiteEdges.map (·.2.cost.units)).sum ≤ 2 ^ 53 * unitsInOne

instance (n : Network) : Decidable n.WholeCosts :=
  decidable_of_iff ((∀ e ∈ n.finiteEdges, unitsInOne ∣ e.2.cost.units) ∧
      (n.finiteEdges.map (·.2.cost.units)).sum ≤ 2 ^ 53 * unitsInOne)
    ⟨fun both => ⟨both.1, both.2⟩, fun costs => ⟨costs.whole, costs.bounded⟩⟩

/-- Steps that pass no vertex twice take no edge twice. -/
theorem WellFormed.edges_nodup (formed : n.WellFormed)
    (chain : (first :: steps).IsChain fun a b => n.Crosses a.vertex b)
    (loopless : (first.vertex :: steps.map (·.vertex)).Nodup) : (steps.filterMap (·.edge)).Nodup := by
  induction steps generalizing first with
  | nil => exact .nil
  | cons s steps ih =>
    obtain ⟨crosses, onward⟩ := List.isChain_cons_cons.mp chain
    obtain ⟨apart, loopless'⟩ := List.nodup_cons.mp loopless
    obtain ⟨edge, _, atEdge, listed, _⟩ := crosses
    rw [List.filterMap_cons_some atEdge, List.nodup_cons]
    refine ⟨fun again => ?_, ih onward loopless'⟩
    obtain ⟨t, later, atEdge'⟩ := List.mem_filterMap.mp again
    refine formed.not_listed onward (fun x member same => apart ?_) t later edge atEdge' listed
    rw [same]
    exact List.mem_map_of_mem member

/-- What the edges of steps cost together, unrounded. -/
def unitsTaken (n : Network) (steps : List Step) : Nat := ((n.stepCosts steps).map units).sum

theorem unitsTaken_split (n : Network) (passed : List Step) (spur : Step) (rest : List Step) :
    n.unitsTaken (passed ++ spur :: rest) = n.unitsTaken (passed ++ [spur]) + n.unitsTaken rest := by
  have shape : passed ++ spur :: rest = passed ++ [spur] ++ rest := by simp
  rw [shape, unitsTaken, stepCosts_append, List.map_append, List.sum_append]
  rfl

/-- The edges of steps with their ids. -/
def taken (n : Network) (steps : List Step) : List (FeatureId × Edge) :=
  (steps.filterMap (·.edge)).filterMap fun id => (n.edge? id).map (id, ·)

theorem map_taken (n : Network) (steps : List Step) :
    (n.taken steps).map (·.2.cost) = n.stepCosts steps := by
  unfold taken stepCosts
  rw [List.map_filterMap]
  congr
  funext id
  simp [edgeCost?, Function.comp_def]

theorem taken_subset (passable : n.Passable steps) : n.taken steps ⊆ n.finiteEdges := by
  rintro ⟨id, e⟩ member
  have cost : e.cost ∈ n.stepCosts steps := by
    rw [← map_taken]
    exact List.mem_map_of_mem member
  obtain ⟨id', _, found⟩ := List.mem_filterMap.mp member
  obtain ⟨e', atEdge, same⟩ := Option.map_eq_some_iff.mp found
  cases same
  exact List.mem_filter.mpr ⟨IdMap.mem_entries_iff.mpr atEdge, passable _ cost⟩

theorem WholeCosts.unitsTaken_le (costs : n.WholeCosts) (passable : n.Passable steps)
    (nodup : (steps.filterMap (·.edge)).Nodup) : n.unitsTaken steps ≤ 2 ^ 53 * unitsInOne := by
  have nodup' : (n.taken steps).Nodup := by
    refine nodup.filterMap fun a a' pair first second => ?_
    obtain ⟨_, _, rfl⟩ := Option.map_eq_some_iff.mp first
    obtain ⟨_, _, same⟩ := Option.map_eq_some_iff.mp second
    exact (congrArg Prod.fst same).symm
  obtain ⟨edges, same, part⟩ := nodup'.subperm (taken_subset passable)
  have units_eq : n.unitsTaken steps = (edges.map (·.2.cost.units)).sum := by
    rw [unitsTaken, ← map_taken, List.map_map]
    exact ((same.map _).sum_eq).symm
  calc n.unitsTaken steps = (edges.map (·.2.cost.units)).sum := units_eq
    _ ≤ (n.finiteEdges.map (·.2.cost.units)).sum :=
      (part.map _).sum_le_sum fun _ _ => Nat.zero_le _
    _ ≤ 2 ^ 53 * unitsInOne := costs.bounded

/-- Whole costs are added up exactly while the sum has at most 53 bits. -/
theorem units_foldl_whole {costs : List Binary64} (each : ∀ c ∈ costs, isCost c ∧ unitsInOne ∣ c.units)
    {x : Binary64} (costX : isCost x) (wholeX : unitsInOne ∣ x.units)
    (finiteX : x.magnitude < infiniteMagnitude)
    (bound : x.units + (costs.map units).sum ≤ 2 ^ 53 * unitsInOne) :
    (costs.foldl (· + ·) x).units = x.units + (costs.map units).sum ∧
      (costs.foldl (· + ·) x).magnitude < infiniteMagnitude := by
  induction costs generalizing x with
  | nil => exact ⟨by simp, finiteX⟩
  | cons c rest ih =>
    obtain ⟨costC, wholeC⟩ := each c (List.mem_cons_self ..)
    have total : ((c :: rest).map units).sum = c.units + (rest.map units).sum := by simp
    obtain ⟨k, whole⟩ := Nat.dvd_add wholeX wholeC
    have scaled : k * unitsInOne ≤ 2 ^ 53 * unitsInOne := by
      rw [Nat.mul_comm k]
      omega
    have small : k ≤ 2 ^ 53 := Nat.le_of_mul_le_mul_right scaled unitsInOne_pos
    obtain ⟨sum, finite⟩ : (x + c).units = x.units + c.units ∧ (x + c).magnitude < infiniteMagnitude := by
      have rounded := unitsOf_nearest_whole small
      rwa [Nat.mul_comm k, ← whole, ← (add_parts costX costC).1] at rounded
    obtain ⟨final, finite'⟩ := ih (fun d member => each d (List.mem_cons_of_mem _ member))
      (isCost_add costX costC) (sum ▸ ⟨k, whole⟩) finite (by omega)
    refine ⟨?_, finite'⟩
    rw [List.foldl_cons, final]
    omega

/-- No rounding on steps that pass no vertex twice. -/
theorem WholeCosts.exact (formed : n.WellFormed) (costs : n.WholeCosts) (passable : n.Passable steps)
    (bound : n.unitsTaken steps ≤ 2 ^ 53 * unitsInOne) {x : Binary64} (zero : x.magnitude = 0)
    (costX : isCost x) :
    ((n.stepCosts steps).foldl (· + ·) x).units = n.unitsTaken steps ∧
      ((n.stepCosts steps).foldl (· + ·) x).magnitude < infiniteMagnitude := by
  have none : x.units = 0 := units_eq_zero_iff.mpr zero
  have each : ∀ c ∈ n.stepCosts steps, isCost c ∧ unitsInOne ∣ c.units := by
    intro c member
    refine ⟨formed.costs member, ?_⟩
    rw [← map_taken] at member
    obtain ⟨e, isTaken, rfl⟩ := List.mem_map.mp member
    exact costs.whole e (taken_subset passable isTaken)
  have finite : x.magnitude < infiniteMagnitude := by
    rw [zero]
    decide
  have bound' : x.units + ((n.stepCosts steps).map units).sum ≤ 2 ^ 53 * unitsInOne := by
    rw [none, Nat.zero_add]
    exact bound
  have sum := units_foldl_whole each costX (none ▸ Nat.dvd_zero _) finite bound'
  rwa [none, Nat.zero_add] at sum

namespace Admissible

variable {p : Path} {total : Binary64}

theorem unitsTaken_le (formed : n.WellFormed) (costs : n.WholeCosts)
    (admissible : n.Admissible source target p) : n.unitsTaken p.steps ≤ 2 ^ 53 * unitsInOne := by
  obtain ⟨steps, rfl⟩ := admissible.exists_steps
  have nodup := formed.edges_nodup admissible.crossing admissible.loopless
  exact costs.unitsTaken_le admissible.passable nodup

/-- No rounding along a whole path. -/
theorem units_pathCost (formed : n.WellFormed) (costs : n.WholeCosts)
    (admissible : n.Admissible source target p) : (n.pathCost p).units = n.unitsTaken p.steps :=
  (costs.exact formed admissible.passable (admissible.unitsTaken_le formed costs) (by decide)
    isCost_negativeZero).1

/-- No rounding from one of its steps on. -/
theorem units_onward (formed : n.WellFormed) (costs : n.WholeCosts)
    (admissible : n.Admissible source target ⟨passed ++ spur :: rest⟩)
    (walk : n.Walk spur.vertex rest target total) :
    total.units = n.unitsTaken rest ∧ total.magnitude < infiniteMagnitude := by
  have bound := admissible.unitsTaken_le formed costs
  dsimp only at bound
  rw [unitsTaken_split] at bound
  rw [walk.total_eq]
  exact costs.exact formed admissible.onward.2.2 (by omega) (by decide) isCost_zero

end Admissible

/-- Where no sum is rounded, the costs of paths guide the search. -/
theorem WholeCosts.guides (formed : n.WellFormed) (costs : n.WholeCosts)
    (known : n.containsVertex source = true) (target : FeatureId) :
    Ranking.Guides n source target fun p q => (n.pathCost p).magnitude ≤ (n.pathCost q).magnitude where
  trans := Nat.le_trans
  of_rank := formed.magnitude_pathCost_of_rank
  first := by
    intro q admissible
    obtain ⟨steps, rfl⟩ := admissible.exists_steps
    have whole : n.Admissible source target ⟨[] ++ ⟨source, none⟩ :: steps⟩ := admissible
    obtain ⟨⟨total, walk⟩, _⟩ := whole.onward
    have finite := (whole.units_onward formed costs walk).2
    rcases cheapestPath_cases formed known target with
      ⟨steps', total', path, walk', _, _, least⟩ | ⟨_, none⟩
    · rw [path, walk'.magnitude_pathCost formed, walk.magnitude_pathCost formed]
      exact ⟨rfl, least steps total walk⟩
    · exact absurd finite (Nat.not_lt.mpr (none steps total walk))
  detour := by
    intro accepted passed spur s rest edge each admissible atEdge fresh
    obtain ⟨⟨total, walk⟩, _⟩ := admissible.onward
    obtain ⟨units, finite⟩ := admissible.units_onward formed costs walk
    obtain ⟨steps, total', found, walk', le⟩ :=
      Ranking.detour?_least formed each admissible atEdge fresh walk finite
    refine ⟨_, found, ?_⟩
    have detour := (Ranking.detour?_admissible formed admissible found).1
    have units' := (detour.units_onward formed costs walk').1
    have onward := units_mono (walk.isCost_total formed) le
    refine magnitude_le_of_units_le (formed.isCost_pathCost _) (formed.isCost_pathCost _) ?_
    rw [detour.units_pathCost formed costs, admissible.units_pathCost formed costs]
    dsimp only
    rw [unitsTaken_split, unitsTaken_split n passed spur (s :: rest)]
    omega

end Network

instance : Finite FeatureId := by
  refine Finite.of_injective (fun id => id.value.toBitVec.toFin) fun a b same => ?_
  have bits : a.value.toBitVec = b.value.toBitVec := BitVec.toFin_inj.mp same
  cases a
  cases b
  exact congrArg FeatureId.mk (Int64.toBitVec_inj.mp bits)

instance : Finite Step := by
  refine Finite.of_injective (fun s : Step => (s.vertex, s.edge)) fun a b same => ?_
  cases a
  cases b
  cases same
  rfl

namespace Network

variable {n : Network} {source : FeatureId}

/-- There are finitely many paths without repeats. -/
theorem finite_admissible (n : Network) (source target : FeatureId) :
    {p | n.Admissible source target p}.Finite := by
  have : Fintype Step := Fintype.ofFinite Step
  refine (Set.finite_range fun l : { l : List Step // l.Nodup } => Path.mk l.1).subset ?_
  intro p admissible
  exact ⟨⟨p.steps, List.Nodup.of_map _ admissible.loopless⟩, rfl⟩

/-- Where the finite costs are whole numbers of a sum of at most 53 bits, the alternatives are as many of
the paths as asked for, or all, in order of cost, and no path left out costs less than one of them. -/
theorem alternatives_cheapest (built : n.Built) (costs : n.WholeCosts)
    (known : n.containsVertex source = true) (target : FeatureId) {count : Nat} (some_asked : 1 ≤ count) :
    (∀ p ∈ (n.alternatives source target count).1, n.Admissible source target p) ∧
      (n.alternatives source target count).1.Nodup ∧
      {p | n.Admissible source target p}.Finite ∧
      (n.alternatives source target count).1.length = min count {p | n.Admissible source target p}.ncard ∧
      (n.alternatives source target count).1.Pairwise (fun p q => n.pathCost p ≤ n.pathCost q) ∧
      ∀ p ∈ (n.alternatives source target count).1, ∀ q, n.Admissible source target q →
        q ∉ (n.alternatives source target count).1 → n.pathCost p ≤ n.pathCost q := by
  have formed := built.wellFormed
  obtain ⟨more, rfl⟩ : ∃ more, count = more + 1 := ⟨count - 1, by omega⟩
  obtain ⟨each, nodup, most⟩ := alternatives_sound formed known target (more + 1)
  obtain ⟨ascending, least, all⟩ := alternatives_least formed known (costs.guides formed known target) more
  have finite := n.finite_admissible source target
  refine ⟨each, nodup, finite, ?_, ascending.imp formed.pathCost_le_iff.mpr,
    fun p member q admissible other => formed.pathCost_le_iff.mpr (least p member q admissible other)⟩
  generalize (n.alternatives source target (more + 1)).1 = paths at each nodup most all
  have inside : (paths.toFinset : Set Path) ⊆ {p | n.Admissible source target p} :=
    fun p member => each p (List.mem_toFinset.mp member)
  have fewer := Set.ncard_le_ncard inside finite
  rw [Set.ncard_coe_finset, List.toFinset_card_of_nodup nodup] at fewer
  rcases all with length | complete
  · omega
  · have equal : {p | n.Admissible source target p} = (paths.toFinset : Set Path) :=
      Set.Subset.antisymm (fun q admissible => List.mem_toFinset.mpr (complete q admissible)) inside
    rw [equal, Set.ncard_coe_finset, List.toFinset_card_of_nodup nodup]
    omega

/-- Two ways round with a rung of no cost between them, a second edge beside one of them, and an edge that
is never travelled. -/
def ladder : Network := (ofConnections
  [.bidirectional 1 2 12 (.ofInt 1), .bidirectional 2 4 24 (.ofInt 1), .directed 2 4 240 (.ofInt 2),
    .bidirectional 1 3 13 (.ofInt 2), .bidirectional 3 4 34 (.ofInt 1), .bidirectional 2 3 23 .zero,
    .directed 1 4 14 .infinity]).1

/-- Asked for nine, the search finds six, which are all. -/
theorem alternatives_cheapest_ladder :
    ladder.Built ∧ ladder.WholeCosts ∧ ladder.containsVertex 1 = true ∧ 1 ≤ 9 ∧
      (ladder.alternatives 1 4 9).1.length = 6 ∧ {p | ladder.Admissible 1 4 p}.ncard = 6 ∧
      (ladder.alternatives 1 4 9).1.Pairwise (fun p q => ladder.pathCost p ≤ ladder.pathCost q) := by
  have built : ladder.Built := built_ofConnections _
  have costs : ladder.WholeCosts := by decide +kernel
  have known : ladder.containsVertex 1 = true := by decide +kernel
  have found : (ladder.alternatives 1 4 9).1.length = 6 := by decide +kernel
  obtain ⟨_, _, _, length, ascending, _⟩ :=
    alternatives_cheapest built costs known 4 (show 1 ≤ 9 by decide)
  refine ⟨built, costs, known, by decide, found, ?_, ascending⟩
  omega

end Network

end FeatureNet
