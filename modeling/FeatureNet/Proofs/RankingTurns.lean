import FeatureNet.Proofs.RankedPaths

namespace FeatureNet

open Binary64 Network

variable {n : Network} {source target : FeatureId}

theorem Network.WellFormed.pathCost_le_of_rank (formed : n.WellFormed) {p q : Path}
    (le : (n.pathCost p).rank ≤ (n.pathCost q).rank) : n.pathCost p ≤ n.pathCost q :=
  formed.pathCost_le_iff.mpr (formed.magnitude_pathCost_of_rank le)

theorem Network.WellFormed.pathCost_le_trans (formed : n.WellFormed) {p q r : Path}
    (first : n.pathCost p ≤ n.pathCost q) (second : n.pathCost q ≤ n.pathCost r) :
    n.pathCost p ≤ n.pathCost r := by
  rw [formed.pathCost_le_iff] at *
  exact Nat.le_trans first second

namespace Ranking

variable {r r' : Ranking}

/-- No detour by which a path is left, once it and those before it are accepted, costs less than it. A
detour is the cheapest way on by sums rounded from its spur, the pool goes by sums rounded from the
source, and the two roundings can disagree. -/
def DetoursAbove (n : Network) (target : FeatureId) (before : List Path) (p : Path) : Prop :=
  ∀ detour ∈ detours n (before ++ [p]) target p, n.pathCost p ≤ n.pathCost detour

/-- The pool costs no less than the latest path, and each path accepted costs no more than the next exactly
if its detours cost no less than it. -/
structure Turning (n : Network) (target : FeatureId) (r : Ranking) : Prop where
  above {cost p} : r.pool.Holds cost p → (n.pathCost r.latest).rank ≤ cost.rank
  turns {before p q after} : r.accepted = before ++ p :: q :: after →
    (n.pathCost p ≤ n.pathCost q ↔ DetoursAbove n target before p)

/-- A path accepted next costs no less than the latest one exactly if that one's detours do. -/
theorem Turning.next (formed : n.WellFormed) (sound : r.Sound n source target)
    (turning : r.Turning n target) (next : advance? target r = some r') :
    n.pathCost r.latest ≤ n.pathCost r'.latest ↔ DetoursAbove n target r.earlier r.latest := by
  obtain ⟨_, _, first, cheapest, _⟩ := sound.advance formed next
  rw [explore_eq, sound.network] at first cheapest
  constructor
  · intro le detour member
    have pooled := cheapest (sound.ordered.holds_pushAll.mpr (.inl ⟨rfl, member⟩))
    exact formed.pathCost_le_trans le (formed.pathCost_le_of_rank pooled)
  · intro detoursAbove
    rcases sound.ordered.holds_pushAll.mp first with ⟨_, member⟩ | old
    · exact detoursAbove _ member
    · exact formed.pathCost_le_of_rank (turning.above old)

theorem Turning.advance (formed : n.WellFormed) (sound : r.Sound n source target)
    (turning : r.Turning n target) (next : advance? target r = some r') : r'.Turning n target := by
  obtain ⟨_, earlier, _, cheapest, kept⟩ := sound.advance formed next
  refine ⟨fun holds => cheapest (kept.mp holds).1, fun {before p q after} split => ?_⟩
  rw [accepted, earlier, List.append_cons before] at split
  rcases concat_eq_append_cons split with ⟨old, rfl⟩ | ⟨rest, old⟩
  · obtain ⟨rfl, last⟩ := List.append_inj' old rfl
    cases List.cons.inj last |>.1
    exact turning.next formed sound next
  · rw [← List.append_cons] at old
    exact turning.turns old

theorem Turning.accept (formed : n.WellFormed) (sound : r.Sound n source target)
    (turning : r.Turning n target) (more : Nat) {before after : List Path} {p q : Path}
    (split : (accept target more r).accepted = before ++ p :: q :: after) :
    n.pathCost p ≤ n.pathCost q ↔ DetoursAbove n target before p := by
  obtain ⟨last, ⟨_, turning'⟩, same, _⟩ :=
    exists_last (P := fun r => r.Sound n source target ∧ r.Turning n target) ⟨sound, turning⟩
      (fun both next => ⟨(both.1.advance formed next).1, both.2.advance formed both.1 next⟩) more
  exact turning'.turns (same.symm.trans split)

end Ranking

namespace Network

theorem alternatives_unknown (unknown : n.containsVertex source = false) (target : FeatureId)
    (count : Nat) : (n.alternatives source target count).1 = [] := by
  have none : n.cheapestPath source target = .empty := by
    rw [cheapestPath, cheapestTree, unknown]
    rfl
  unfold alternatives
  rw [none]
  cases count <;> rfl

/-- The alternatives are what is accepted behind the cheapest path, unless there are none. -/
theorem alternatives_cases (formed : n.WellFormed) (source target : FeatureId) (count : Nat) :
    (n.alternatives source target count).1 = [] ∨
      ∃ more, count = more + 1 ∧
        Ranking.Sound n source target ⟨n, [], n.cheapestPath source target, .empty⟩ ∧
        (n.alternatives source target count).1 =
          (Ranking.accept target more ⟨n, [], n.cheapestPath source target, .empty⟩).accepted := by
  cases known : n.containsVertex source with
  | false => exact .inl (alternatives_unknown known target count)
  | true =>
    cases count with
    | zero => exact .inl rfl
    | succ more =>
      unfold alternatives
      dsimp only
      split
      · exact .inl rfl
      · next found =>
        have first := admissible_cheapestPath formed known (Bool.not_eq_true _ ▸ found)
        exact .inr ⟨more, rfl, Ranking.sound_first first, rfl⟩

/-- Each of the alternatives costs no more than the next exactly if no detour by which it is left costs less
than it. -/
theorem alternatives_turn (formed : n.WellFormed) {count : Nat} {before after : List Path} {p q : Path}
    (split : (n.alternatives source target count).1 = before ++ p :: q :: after) :
    n.pathCost p ≤ n.pathCost q ↔ Ranking.DetoursAbove n target before p := by
  rcases alternatives_cases formed source target count with none | ⟨more, _, sound, run⟩
  · rw [none] at split
    exact absurd split.symm (by simp)
  · have turning : Ranking.Turning n target ⟨n, [], n.cheapestPath source target, .empty⟩ := by
      refine ⟨fun holds => absurd holds Frontier.not_holds_empty, fun {before p q after} only => ?_⟩
      have length := congrArg List.length only
      simp only [Ranking.accepted, List.length_append, List.length_cons, List.length_nil] at length
      omega
    exact turning.accept formed sound more (run.symm.trans split)

/-- The alternatives are in order of cost exactly if none of them is left by a detour that costs less. -/
theorem alternatives_ascending_iff (built : n.Built) (source target : FeatureId) (count : Nat) :
    (n.alternatives source target count).1.IsChain (fun p q => n.pathCost p ≤ n.pathCost q) ↔
      ∀ before p q after, (n.alternatives source target count).1 = before ++ p :: q :: after →
        Ranking.DetoursAbove n target before p := by
  rw [List.isChain_iff_forall_rel_of_append_cons_cons]
  constructor
  · intro ascending before p q after split
    exact (alternatives_turn built.wellFormed split).mp (ascending split)
  · intro above p q before after split
    exact (alternatives_turn built.wellFormed split).mpr (above before p q after split)

/-- After a cost of 2 to the 53, an edge of cost one and a half is rounded up to two and an edge of cost one
is lost, so the way round by two edges of cost one costs less than the edge beside it. -/
def swamped : Network := (ofConnections
  [.directed 1 2 12 ⟨0x4340000000000000⟩, .directed 2 3 23 .zero, .directed 2 3 230 ⟨0x3FF8000000000000⟩,
    .directed 2 4 24 (.ofInt 1), .directed 4 3 43 (.ofInt 1)]).1

/-- The edge of one and a half is the cheapest way on from the second vertex and is accepted; the way round
is found only then, and it costs less. -/
theorem alternatives_ascending_iff_swamped :
    swamped.Built ∧ ∃ before p q after, (swamped.alternatives 1 3 3).1 = before ++ p :: q :: after ∧
      ∃ detour ∈ Ranking.detours swamped (before ++ [p]) 3 p,
        ¬swamped.pathCost p ≤ swamped.pathCost detour := by
  have built : swamped.Built := built_ofConnections _
  have descends : ¬(swamped.alternatives 1 3 3).1.IsChain
      fun p q => swamped.pathCost p ≤ swamped.pathCost q := by decide +kernel
  refine ⟨built, ?_⟩
  have turn := mt (alternatives_ascending_iff built 1 3 3).mpr descends
  simp only [Ranking.DetoursAbove, not_forall] at turn
  obtain ⟨before, p, q, after, split, detour, member, less⟩ := turn
  exact ⟨before, p, q, after, split, detour, member, less⟩

/-- Finite costs alone do not put the alternatives in order. -/
theorem alternatives_not_ascending :
    swamped.Built ∧ (∀ e ∈ swamped.edges.entries, e.2.cost.isFinite = true) ∧
      (swamped.alternatives 1 3 3).1.map swamped.pathCost =
        [⟨0x4340000000000000⟩, ⟨0x4340000000000001⟩, ⟨0x4340000000000000⟩] ∧
      ¬(swamped.alternatives 1 3 3).1.IsChain fun p q => swamped.pathCost p ≤ swamped.pathCost q :=
  ⟨built_ofConnections _, by decide +kernel, by decide +kernel, by decide +kernel⟩

end Network

end FeatureNet
