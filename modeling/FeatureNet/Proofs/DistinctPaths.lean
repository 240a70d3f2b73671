import FeatureNet.Proofs.RankingTurns

namespace FeatureNet

open Network

/-- What is accepted stays, and what is accepted later comes behind it. -/
theorem Ranking.accepted_stays (target : FeatureId) (more : Nat) (r : Ranking) :
    ∃ later, (accept target more r).accepted = r.accepted ++ later := by
  have step {before after : Ranking} (stays : ∃ later, before.accepted = r.accepted ++ later)
      (next : advance? target before = some after) : ∃ later, after.accepted = r.accepted ++ later := by
    obtain ⟨later, stays⟩ := stays
    obtain ⟨_, earlier, _⟩ := advance?_eq_some next
    exact ⟨later ++ [after.latest], by rw [accepted, earlier, stays, List.append_assoc]⟩
  obtain ⟨last, ⟨later, stays⟩, same, _⟩ :=
    exists_last (P := fun last => ∃ later, last.accepted = r.accepted ++ later)
      ⟨[], (List.append_nil _).symm⟩ step more
  exact ⟨later, same.trans stays⟩

/-- A run that may accept more begins with what a shorter run accepts; a run that has ended accepts nothing
more. -/
theorem Ranking.accepted_take (target : FeatureId) {more count : Nat} (le : more ≤ count) (r : Ranking) :
    (accept target more r).accepted = (accept target count r).accepted.take (r.accepted.length + more) := by
  induction more generalizing r count with
  | zero =>
    obtain ⟨later, stays⟩ := accepted_stays target count r
    rw [stays, Nat.add_zero, List.take_left]
    rfl
  | succ more ih =>
    obtain ⟨rest, rfl⟩ : ∃ rest, count = rest + 1 := ⟨count - 1, by omega⟩
    rw [accept_succ, accept_succ]
    cases next : advance? target r with
    | none =>
      have whole : (r.explore target).accepted.length ≤ r.accepted.length + (more + 1) := by
        rw [accepted_explore]
        omega
      exact (List.take_of_length_le whole).symm
    | some r' =>
      have one := length_accepted (advance?_eq_some next).2.1
      dsimp only
      rw [ih (Nat.le_of_succ_le_succ le), one, Nat.add_assoc, Nat.add_comm 1]

namespace Network

variable {n : Network} {source target : FeatureId}

/-- The alternatives up to some number begin with those up to a smaller number. -/
theorem alternatives_take (n : Network) (source target : FeatureId) {count more : Nat} (le : count ≤ more) :
    (n.alternatives source target count).1 = (n.alternatives source target more).1.take count := by
  cases count with
  | zero => rfl
  | succ count =>
    obtain ⟨rest, rfl⟩ : ∃ rest, more = rest + 1 := ⟨more - 1, by omega⟩
    unfold alternatives
    dsimp only
    split
    · rfl
    · have first : (⟨n, [], n.cheapestPath source target, .empty⟩ : Ranking).accepted.length = 1 := rfl
      dsimp only
      rw [Ranking.accepted_take target (Nat.le_of_succ_le_succ le), first, Nat.add_comm]

/-- The first of the alternatives is the cheapest path, if there is one and any are asked for. -/
theorem head?_alternatives (n : Network) (source target : FeatureId) (count : Nat) :
    (n.alternatives source target count).1.head? =
      if count = 0 ∨ (n.cheapestPath source target).isEmpty = true then none
      else some (n.cheapestPath source target) := by
  unfold alternatives
  cases count with
  | zero => rfl
  | succ more =>
    cases found : (n.cheapestPath source target).isEmpty with
    | true => simp [found]
    | false =>
      obtain ⟨later, accepted⟩ :=
        Ranking.accepted_stays target more ⟨n, [], n.cheapestPath source target, .empty⟩
      dsimp only
      rw [found, if_neg Bool.false_ne_true, accepted]
      simp [Ranking.accepted]

/-- Whatever the costs, the alternatives are loopless paths of the network over edges of finite cost, past
no blocked vertex but perhaps the source; no two of them take the same edges in the same order; there are no
more than asked for, and the cheapest path comes first. -/
theorem alternatives_distinct (built : n.Built) (source target : FeatureId) (count : Nat) :
    (∀ p ∈ (n.alternatives source target count).1, n.Admissible source target p) ∧
      ((n.alternatives source target count).1.map (·.edges)).Nodup ∧
      (n.alternatives source target count).1.length ≤ count ∧
      (n.alternatives source target count).1.head? =
        if count = 0 ∨ (n.cheapestPath source target).isEmpty = true then none
        else some (n.cheapestPath source target) := by
  have first := n.head?_alternatives source target count
  cases known : n.containsVertex source with
  | false =>
    rw [alternatives_unknown known] at first ⊢
    exact ⟨by simp, .nil, Nat.zero_le _, first⟩
  | true =>
    obtain ⟨each, nodup, most⟩ := alternatives_sound built.wellFormed known target count
    refine ⟨each, nodup.map_on fun p isPath q isPath' same => ?_, most, first⟩
    exact (each p isPath).eq_of_edges (each q isPath') same

/-- The greatest finite cost twice is more than any finite cost. -/
def overflowing : Network := (ofConnections
  [.directed 1 2 12 ⟨0x7FEFFFFFFFFFFFFF⟩, .directed 2 3 23 .zero, .directed 2 3 230 .zero,
    .directed 2 4 24 ⟨0x7FEFFFFFFFFFFFFF⟩, .directed 4 3 43 .zero, .directed 3 1 31 .zero,
    .directed 1 3 13 .infinity]).1.setBlocked 1 true

/-- Two edges beside each other make two paths, the way round is a path though its cost overflows, and the
source may be blocked. -/
theorem alternatives_distinct_overflowing :
    overflowing.Built ∧
      (overflowing.alternatives 1 3 9).1.map (·.edges) = [[12, 23], [12, 230], [12, 24, 43]] ∧
      (overflowing.alternatives 1 3 9).1.map overflowing.pathCost =
        [⟨0x7FEFFFFFFFFFFFFF⟩, ⟨0x7FEFFFFFFFFFFFFF⟩, .infinity] ∧
      (∀ p ∈ (overflowing.alternatives 1 3 9).1, overflowing.Admissible 1 3 p) ∧
      (overflowing.alternatives 1 3 9).1.head? = some (overflowing.cheapestPath 1 3) := by
  have unblocked := built_ofConnections [.directed 1 2 12 ⟨0x7FEFFFFFFFFFFFFF⟩, .directed 2 3 23 .zero,
    .directed 2 3 230 .zero, .directed 2 4 24 ⟨0x7FEFFFFFFFFFFFFF⟩, .directed 4 3 43 .zero,
    .directed 3 1 31 .zero, .directed 1 3 13 .infinity]
  have blocks : Network.block _ 1 = .ok overflowing :=
    block_ok_iff.mpr ⟨⟨⟨false, [12, 13]⟩, by decide +kernel, rfl⟩, rfl⟩
  have built : overflowing.Built := unblocked.block blocks
  obtain ⟨each, _, _, first⟩ := alternatives_distinct built 1 3 9
  have found : ¬(9 = 0 ∨ (overflowing.cheapestPath 1 3).isEmpty = true) := by decide +kernel
  rw [if_neg found] at first
  exact ⟨built, by decide +kernel, by decide +kernel, each, first⟩

end Network

end FeatureNet
