import FeatureNet.Proofs.DistinctPaths
import FeatureNet.Proofs.WholeCosts

namespace FeatureNet

open Binary64 Network

namespace Binary64

/-- The greatest power of two, in front of which a cost of at most 2 to the 960 is lost in rounding. -/
def ceiling : Binary64 := ⟨0x7FE0000000000000⟩

def modest : Binary64 := ⟨0x7BF0000000000000⟩

theorem nearest_ceiling_modest : nearest (ceiling.units + modest.units) 1 = ceiling.magnitude := by
  decide +kernel

end Binary64

namespace Network

variable {n : Network} {source target root v : FeatureId} {steps : List Step} {total : Binary64}

/-- Asking for more than there are changes nothing. -/
theorem alternatives_ended {count more : Nat}
    (short : (n.alternatives source target count).1.length < count) (le : count ≤ more) :
    n.alternatives source target more = n.alternatives source target count := by
  have beginning := n.alternatives_take source target le
  have whole : (n.alternatives source target more).1.length ≤ count := by
    rw [beginning, List.length_take] at short
    omega
  rw [List.take_of_length_le whole] at beginning
  exact Prod.ext beginning.symm ((n.network_alternatives ..).trans (n.network_alternatives ..).symm)

/-- There are no more alternatives than paths without repeats. -/
theorem WellFormed.length_alternatives_le (formed : n.WellFormed) (source target : FeatureId) (count : Nat) :
    (n.alternatives source target count).1.length ≤ {p | n.Admissible source target p}.ncard := by
  cases known : n.containsVertex source with
  | false => rw [alternatives_unknown known]; exact Nat.zero_le _
  | true =>
    obtain ⟨each, nodup, _⟩ := alternatives_sound formed known target count
    rw [← List.toFinset_card_of_nodup nodup, ← Set.ncard_coe_finset]
    refine Set.ncard_le_ncard (fun p member => ?_) (n.finite_admissible source target)
    exact each p (List.mem_toFinset.mp member)

/-- No sum of finite costs along a walk that passes no vertex twice overflows, rounded as it may be. -/
def SumsFinite (n : Network) : Prop :=
  ∀ root steps v total, n.Walk root steps v total → (root :: steps.map (·.vertex)).Nodup →
    n.Passable steps → total.isFinite = true

/-- Where no sum overflows, a path is found from any spur from which there is a way on. That is all the
guidance that finding every path takes, in whatever order. -/
theorem SumsFinite.guides (formed : n.WellFormed) (finite : n.SumsFinite)
    (known : n.containsVertex source = true) (target : FeatureId) :
    Ranking.Guides n source target fun _ _ => True where
  trans _ _ := trivial
  of_rank _ := trivial
  first := by
    intro q admissible
    obtain ⟨steps, rfl⟩ := admissible.exists_steps
    have whole : n.Admissible source target ⟨[] ++ ⟨source, none⟩ :: steps⟩ := admissible
    obtain ⟨⟨total, walk⟩, nodup, passable⟩ := whole.onward
    have below := isFinite_iff.mp (finite _ _ _ _ walk nodup passable)
    rcases cheapestPath_cases formed known target with ⟨steps', total', path, _⟩ | ⟨_, none⟩
    · rw [path]
      exact ⟨rfl, trivial⟩
    · exact absurd below (Nat.not_lt.mpr (none steps total walk))
  detour := by
    intro accepted passed spur s rest edge each admissible atEdge fresh
    obtain ⟨⟨total, walk⟩, nodup, passable⟩ := admissible.onward
    have below := isFinite_iff.mp (finite _ _ _ _ walk nodup passable)
    obtain ⟨steps, total', found, _⟩ :=
      Ranking.detour?_least formed each admissible atEdge fresh walk below
    exact ⟨_, found, trivial⟩

/-- However many paths are asked for, the search ends after no more rounds than there are paths without
repeats, and one: every round but the last accepts a new path. If no sum of finite costs overflows,
whatever is rounded, and fewer paths are found than asked for, then those found are all that there are. -/
theorem alternatives_exhaustive (built : n.Built) (finite : n.SumsFinite) (source target : FeatureId) :
    {p | n.Admissible source target p}.Finite ∧
      (∀ count, {p | n.Admissible source target p}.ncard < count →
        n.alternatives source target count =
          n.alternatives source target ({p | n.Admissible source target p}.ncard + 1)) ∧
      ∀ count, (n.alternatives source target count).1.length < count →
        ∀ p, p ∈ (n.alternatives source target count).1 ↔
          n.Admissible source target p ∧ n.containsVertex source = true := by
  have formed := built.wellFormed
  refine ⟨n.finite_admissible source target, fun count more => ?_, fun count short p => ?_⟩
  · have most := formed.length_alternatives_le source target
      ({p | n.Admissible source target p}.ncard + 1)
    exact alternatives_ended (Nat.lt_succ_of_le most) more
  · cases known : n.containsVertex source with
    | false =>
      rw [alternatives_unknown known]
      simp
    | true =>
      obtain ⟨each, _⟩ := alternatives_sound formed known target count
      refine ⟨fun member => ⟨each p member, rfl⟩, fun ⟨admissible, _⟩ => ?_⟩
      obtain ⟨more, rfl⟩ : ∃ more, count = more + 1 := ⟨count - 1, by omega⟩
      obtain ⟨_, _, all⟩ := alternatives_least formed known (finite.guides formed known target) more
      rcases all with length | complete
      · exact absurd length (Nat.ne_of_lt short)
      · exact complete p admissible

/-- Costs of at most 2 to the 960 never add up to more than 2 to the 1023, however many they are. -/
theorem Walk.magnitude_le_ceiling (formed : n.WellFormed)
    (each : ∀ e ∈ n.finiteEdges, e.2.cost.magnitude ≤ modest.magnitude) (walk : n.Walk root steps v total)
    (passable : n.Passable steps) : total.magnitude ≤ ceiling.magnitude := by
  have costModest : isCost modest := by decide
  have costCeiling : isCost ceiling := by decide
  induction walk with
  | here => decide
  | @on steps u total edge e walk listed found _ ih =>
    obtain ⟨before, now⟩ := passable_append.mp passable
    have costU := walk.isCost_total formed
    have costE := formed.cost found
    have finite : e.cost.isFinite = true := now _ (by simp [stepCosts, edgeCost?, found])
    have member : (edge, e) ∈ n.finiteEdges :=
      List.mem_filter.mpr ⟨IdMap.mem_entries_iff.mpr found, finite⟩
    calc (total + e.cost).magnitude = nearest (total.units + e.cost.units) 1 := (add_parts costU costE).1
      _ ≤ nearest (ceiling.units + modest.units) 1 := nearest_mono
        (Nat.add_le_add (units_mono costCeiling (ih before)) (units_mono costModest (each _ member)))
      _ = ceiling.magnitude := nearest_ceiling_modest

theorem sumsFinite_of_modest (formed : n.WellFormed)
    (each : ∀ e ∈ n.finiteEdges, e.2.cost.magnitude ≤ modest.magnitude) : n.SumsFinite := by
  intro root steps v total walk _ passable
  have below := walk.magnitude_le_ceiling formed each passable
  exact isFinite_iff.mpr (Nat.lt_of_le_of_lt below (by decide))

/-- Tenths, whose sums are rounded, with a vertex that is blocked and an edge that is never travelled. -/
def tenths : Network := (ofConnections
  [.bidirectional 1 2 12 ⟨0x3FB999999999999A⟩, .bidirectional 2 4 24 ⟨0x3FC999999999999A⟩,
    .directed 1 4 14 ⟨0x3FD3333333333333⟩, .bidirectional 1 3 13 .zero, .bidirectional 3 4 34 .zero,
    .directed 1 5 15 .zero, .bidirectional 5 4 54 .zero, .directed 2 4 240 .infinity]).1.setBlocked 5 true

/-- Asked for nine, the search finds three, and there are no others. -/
theorem alternatives_exhaustive_tenths :
    tenths.Built ∧ tenths.SumsFinite ∧ (tenths.alternatives 1 4 9).1.map (·.edges) = [[13, 34], [14], [12, 24]] ∧
      ∀ p, p ∈ (tenths.alternatives 1 4 9).1 ↔ tenths.Admissible 1 4 p ∧ tenths.containsVertex 1 = true := by
  have blocks : Network.block _ 5 = .ok tenths :=
    block_ok_iff.mpr ⟨⟨⟨false, [54]⟩, by decide +kernel, rfl⟩, rfl⟩
  have built : tenths.Built := (built_ofConnections _).block blocks
  have finite : tenths.SumsFinite := sumsFinite_of_modest built.wellFormed (by decide +kernel)
  exact ⟨built, finite, by decide +kernel,
    (alternatives_exhaustive built finite 1 4).2.2 9 (by decide +kernel)⟩

end Network

end FeatureNet
