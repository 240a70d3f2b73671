import FeatureNet.Proofs.Detours
import FeatureNet.Proofs.FrontierOrder

namespace FeatureNet

open Binary64 Network

/-- A list with one more element, parted at one of them: at the last one, or before it. -/
theorem concat_eq_append_cons {α : Type} {l before after : List α} {a b : α}
    (split : l ++ [a] = before ++ b :: after) :
    l = before ∧ a = b ∨ ∃ rest, l = before ++ b :: rest := by
  cases after using List.reverseRecOn with
  | nil =>
    obtain ⟨same, last⟩ := List.append_inj' split rfl
    exact .inl ⟨same, (List.cons.inj last).1⟩
  | append_singleton rest c =>
    rw [← List.cons_append, ← List.append_assoc] at split
    exact .inr ⟨rest, (List.append_inj' split rfl).1⟩

namespace Ranking

variable {n : Network} {source target : FeatureId} {le : Path → Path → Prop} {r r' : Ranking}

theorem mem_spurs {before passed steps : List Step} {spur : Step} :
    (passed, spur) ∈ spurs before steps ↔
      ∃ inside t others, passed = before ++ inside ∧ steps = inside ++ spur :: t :: others := by
  induction steps generalizing before with
  | nil => simp [spurs]
  | cons s steps ih =>
    cases steps with
    | nil =>
      refine ⟨fun member => absurd member List.not_mem_nil, ?_⟩
      rintro ⟨inside, t, others, _, shape⟩
      have length := congrArg List.length shape
      simp only [List.length_cons, List.length_append, List.length_nil] at length
      omega
    | cons s' steps =>
      show (passed, spur) ∈ (before, s) :: spurs (before ++ [s]) (s' :: steps) ↔ _
      rw [List.mem_cons, ih]
      constructor
      · rintro (same | ⟨inside, t, others, rfl, shape⟩)
        · cases same
          exact ⟨[], s', steps, by simp, rfl⟩
        · exact ⟨s :: inside, t, others, by simp, by rw [shape, List.cons_append]⟩
      · rintro ⟨inside, t, others, rfl, shape⟩
        cases inside with
        | nil =>
          cases shape
          exact .inl (by simp)
        | cons _ inside =>
          obtain ⟨rfl, shape'⟩ := List.cons.inj shape
          exact .inr ⟨inside, t, others, by simp, shape'⟩

/-- The detours by which a path is left when it is the latest one accepted. -/
def detours (n : Network) (accepted : List Path) (target : FeatureId) (latest : Path) : List Path :=
  (spurs [] latest.steps).filterMap (detour? n accepted target)

theorem explore_eq (target : FeatureId) (r : Ranking) :
    r.explore target =
      { r with
        pool := r.pool.pushAll r.network.pathCost (detours r.network r.accepted target r.latest) } := by
  suffices general : ∀ (l : List (List Step × Step)) (pool : Frontier Path),
      l.foldl (leaveAt target) { r with pool } =
        { r with pool :=
            pool.pushAll r.network.pathCost (l.filterMap (detour? r.network r.accepted target)) } from
    general _ r.pool
  intro l
  induction l with
  | nil => exact fun _ => rfl
  | cons spur l ih =>
    intro pool
    have same : ({ r with pool } : Ranking).accepted = r.accepted := rfl
    rw [List.foldl_cons, leaveAt_eq, same]
    cases found : detour? r.network r.accepted target spur with
    | none => rw [List.filterMap_cons_none found, ih]
    | some p => rw [List.filterMap_cons_some found, ih, Frontier.pushAll, Frontier.pushAll, List.foldl_cons]

theorem mem_detours {accepted : List Path} {latest p : Path} :
    p ∈ detours n accepted target latest ↔
      ∃ passed spur t others, latest.steps = passed ++ spur :: t :: others ∧
        detour? n accepted target (passed, spur) = some p := by
  unfold detours
  rw [List.mem_filterMap]
  constructor
  · rintro ⟨⟨passed, spur⟩, member, found⟩
    obtain ⟨inside, t, others, same, shape⟩ := mem_spurs.mp member
    rw [List.nil_append] at same
    subst same
    exact ⟨passed, spur, t, others, shape, found⟩
  · rintro ⟨passed, spur, t, others, shape, found⟩
    exact ⟨(passed, spur), mem_spurs.mpr ⟨passed, t, others, rfl, shape⟩, found⟩

/-- What always holds of a ranking: all its paths are paths of the network, and the pool keeps paths that
are not accepted, at their costs. -/
structure Sound (n : Network) (source target : FeatureId) (r : Ranking) : Prop where
  network : r.network = n
  admissible : ∀ p ∈ r.accepted, n.Admissible source target p
  nodup : r.accepted.Nodup
  ordered : r.pool.Ordered
  pooled {cost p} : r.pool.Holds cost p →
    cost = n.pathCost p ∧ n.Admissible source target p ∧ p ∉ r.accepted

/-- One more path accepted, unless the pool is empty once the latest path is explored. -/
def advance? (target : FeatureId) (r : Ranking) : Option Ranking :=
  match (r.explore target).pool.popMin? with
  | none => none
  | some ((_, path), pool) =>
    some ⟨r.network, r.accepted, path, pool.retain fun other => !other.sameEdges path⟩

theorem accept_succ (target : FeatureId) (more : Nat) (r : Ranking) :
    accept target (more + 1) r =
      match advance? target r with
      | none => r.explore target
      | some r' => accept target more r' := by
  obtain ⟨network, earlier, latest⟩ := network_explore target r
  rw [accept, advance?]
  cases (r.explore target).pool.popMin? with
  | none => rfl
  | some taken =>
    dsimp only
    rw [accepted, accepted, network, earlier, latest]

/-- What accepting one more path does on any network. -/
theorem advance?_eq_some (next : advance? target r = some r') :
    r'.network = r.network ∧ r'.earlier = r.accepted ∧ ∃ cost pool,
      (r.explore target).pool.popMin? = some ((cost, r'.latest), pool) ∧
        r'.pool = pool.retain fun other => !other.sameEdges r'.latest := by
  unfold advance? at next
  split at next
  · cases next
  · next cost path pool taken =>
    cases next
    exact ⟨rfl, rfl, cost, pool, taken, rfl⟩

theorem length_accepted (earlier : r'.earlier = r.accepted) :
    r'.accepted.length = r.accepted.length + 1 := by
  rw [accepted, earlier, List.length_append, List.length_singleton]

theorem latest_mem (r : Ranking) : r.latest ∈ r.accepted := List.mem_concat_self ..

theorem accepted_explore (target : FeatureId) (r : Ranking) : (r.explore target).accepted = r.accepted := by
  obtain ⟨_, earlier, latest⟩ := network_explore target r
  rw [accepted, accepted, earlier, latest]

/-- What accepting one more path preserves holds of the ranking that a run comes to: the run has accepted all
that was asked for then, or explores once more in vain. -/
theorem exists_last {P : Ranking → Prop} (start : P r)
    (step : ∀ {r r'}, P r → advance? target r = some r' → P r') (more : Nat) :
    ∃ last, P last ∧ (accept target more r).accepted = last.accepted ∧
      (accept target more r = last ∧ last.accepted.length = r.accepted.length + more ∨
        accept target more r = last.explore target ∧ advance? target last = none ∧
          last.accepted.length ≤ r.accepted.length + more) := by
  induction more generalizing r with
  | zero => exact ⟨r, start, rfl, .inl ⟨rfl, rfl⟩⟩
  | succ more ih =>
    rw [accept_succ]
    cases next : advance? target r with
    | none => exact ⟨r, start, accepted_explore target r, .inr ⟨rfl, next, Nat.le_add_right _ _⟩⟩
    | some r' =>
      have one := length_accepted (advance?_eq_some next).2.1
      obtain ⟨last, holds, same, whole | ended⟩ := ih (step start next)
      · exact ⟨last, holds, same, .inl ⟨whole.1, by omega⟩⟩
      · exact ⟨last, holds, same, .inr ⟨ended.1, ended.2.1, by omega⟩⟩

theorem Sound.explore (formed : n.WellFormed) (sound : r.Sound n source target) :
    (r.explore target).Sound n source target := by
  rw [explore_eq]
  refine ⟨sound.network, sound.admissible, sound.nodup, sound.ordered.pushAll _ _, fun holds => ?_⟩
  rcases sound.ordered.holds_pushAll.mp holds with ⟨key, member⟩ | old
  · obtain ⟨passed, spur, t, others, shape, found⟩ := mem_detours.mp member
    have base : n.Admissible source target ⟨passed ++ spur :: t :: others⟩ := by
      rw [← shape]
      exact sound.admissible _ r.latest_mem
    rw [sound.network] at key found
    obtain ⟨admissible, s, rest, edge, steps, atEdge, fresh⟩ := detour?_admissible formed base found
    refine ⟨key, admissible, fun old => fresh _ old ⟨s, rest, ?_, atEdge⟩⟩
    rw [steps, List.append_assoc, List.singleton_append]
  · exact sound.pooled old

/-- The pool keeps all but the path accepted, under the numbers that they have. -/
theorem Sound.mem_advance (formed : n.WellFormed) (sound : r.Sound n source target)
    (next : advance? target r = some r') {cost : Binary64} {number : Nat} {p : Path} :
    (cost, number, p) ∈ r'.pool.entries ↔
      (cost, number, p) ∈ (r.explore target).pool.entries ∧ p ≠ r'.latest := by
  have explored := sound.explore formed
  obtain ⟨_, _, cost', pool, taken, kept⟩ := advance?_eq_some next
  obtain ⟨number', entries, _⟩ := Frontier.entries_of_popMin? taken
  have first : (r.explore target).pool.Holds cost' r'.latest := ⟨number', entries ▸ List.mem_cons_self ..⟩
  have differs (member : (cost, number, p) ∈ (r.explore target).pool.entries) :
      (!p.sameEdges r'.latest) = true ↔ p ≠ r'.latest := by
    rw [Bool.not_eq_true', ← Bool.not_eq_true,
      (explored.pooled ⟨number, member⟩).2.1.sameEdges_iff (explored.pooled first).2.1]
  rw [kept, Frontier.retain, List.mem_filter]
  constructor
  · rintro ⟨later, passes⟩
    have member : (cost, number, p) ∈ (r.explore target).pool.entries := entries ▸ List.mem_cons_of_mem _ later
    exact ⟨member, (differs member).mp passes⟩
  · rintro ⟨member, other⟩
    have passes := (differs member).mpr other
    rw [entries] at member
    rcases List.mem_cons.mp member with same | later
    · cases same
      exact absurd rfl other
    · exact ⟨later, passes⟩

/-- What accepting one more path does: the path was pooled, none of the pool was cheaper, and the pool keeps
all but that path. -/
theorem Sound.advance (formed : n.WellFormed) (sound : r.Sound n source target)
    (next : advance? target r = some r') :
    r'.Sound n source target ∧ r'.earlier = r.accepted ∧
      (r.explore target).pool.Holds (n.pathCost r'.latest) r'.latest ∧
      (∀ {cost p}, (r.explore target).pool.Holds cost p → (n.pathCost r'.latest).rank ≤ cost.rank) ∧
      ∀ {cost p}, r'.pool.Holds cost p ↔ (r.explore target).pool.Holds cost p ∧ p ≠ r'.latest := by
  have explored := sound.explore formed
  obtain ⟨network, earlier, cost, pool, taken, kept⟩ := advance?_eq_some next
  obtain ⟨ordered, first, split, above⟩ := explored.ordered.holds_popMin taken
  obtain ⟨rfl, admissible, fresh⟩ := explored.pooled first
  have left {cost : Binary64} {p : Path} :
      r'.pool.Holds cost p ↔ (r.explore target).pool.Holds cost p ∧ p ≠ r'.latest := by
    simp only [Frontier.Holds, sound.mem_advance formed next, exists_and_right]
  rw [accepted_explore] at fresh
  refine ⟨⟨network.trans sound.network, ?_, ?_, kept ▸ ordered.retain _, fun holds => ?_⟩,
    earlier, first, fun holds => ?_, left⟩
  · rw [accepted, earlier]
    intro p member
    rcases List.mem_append.mp member with old | new
    · exact sound.admissible p old
    · rw [List.mem_singleton.mp new]
      exact admissible
  · rw [accepted, earlier, ← List.concat_eq_append]
    exact sound.nodup.concat fresh
  · obtain ⟨before, differs⟩ := left.mp holds
    obtain ⟨key, admissible', fresh'⟩ := explored.pooled before
    refine ⟨key, admissible', fun member => ?_⟩
    rw [accepted, earlier] at member
    rcases List.mem_append.mp member with old | new
    · exact fresh' (accepted_explore target r ▸ old)
    · exact differs (List.mem_singleton.mp new)
  · rcases split holds with ⟨rfl, _⟩ | later
    · exact Int.le_refl _
    · exact (above later).2

theorem advance?_eq_none (target : FeatureId) (r : Ranking) (none : advance? target r = none)
    {cost : Binary64} {p : Path} : ¬(r.explore target).pool.Holds cost p := by
  unfold advance? at none
  split at none
  · next empty =>
    rintro ⟨number, member⟩
    rw [Frontier.popMin?_eq_none_iff.mp empty] at member
    exact List.not_mem_nil member
  · cases none

/-- Exploring and accepting keep a ranking sound, and so does every run; it accepts up to so many more. -/
theorem Sound.accept (formed : n.WellFormed) (sound : r.Sound n source target) (more : Nat) :
    (accept target more r).Sound n source target ∧
      (accept target more r).accepted.length ≤ r.accepted.length + more := by
  obtain ⟨last, sound', _, ⟨run, length⟩ | ⟨run, _, length⟩⟩ :=
    exists_last sound (fun sound next => (Sound.advance formed sound next).1) more
  · rw [run]
    exact ⟨sound', Nat.le_of_eq length⟩
  · rw [run, accepted_explore]
    exact ⟨sound'.explore formed, length⟩

/-- An order that the search goes by: a path of no greater cost is no worse, the first path is no worse than
any other, and a detour is no worse than any other way on that is new. -/
structure Guides (n : Network) (source target : FeatureId) (le : Path → Path → Prop) : Prop where
  trans {p q r} : le p q → le q r → le p r
  of_rank {p q} : (n.pathCost p).rank ≤ (n.pathCost q).rank → le p q
  first {q} : n.Admissible source target q →
    (n.cheapestPath source target).isEmpty = false ∧ le (n.cheapestPath source target) q
  detour {accepted passed spur s rest edge} : (∀ p ∈ accepted, n.Admissible source target p) →
    n.Admissible source target ⟨passed ++ spur :: s :: rest⟩ → s.edge = some edge →
    (∀ p ∈ accepted, ¬p.Continues (passed ++ [spur]) edge) →
    ∃ p, detour? n accepted target (passed, spur) = some p ∧ le p ⟨passed ++ spur :: s :: rest⟩

/-- A spur is covered if the pool has a path of that root no worse than any that goes on there by an edge
of its own. -/
def Covers (n : Network) (source target : FeatureId) (le : Path → Path → Prop) (r : Ranking)
    (passed : List Step) (spur : Step) : Prop :=
  ∀ s rest edge, n.Admissible source target ⟨passed ++ spur :: s :: rest⟩ → s.edge = some edge →
    (∀ p ∈ r.accepted, ¬p.Continues (passed ++ [spur]) edge) →
    ∃ p cost, r.pool.Holds cost p ∧ le p ⟨passed ++ spur :: s :: rest⟩ ∧
      ∃ y ys, p.steps = passed ++ spur :: y :: ys

/-- Before the latest path is explored, the spurs of the earlier ones are covered unless the latest path
goes on from them too, and no path left out is better than one accepted. So what is taken from the pool is
no worse than any path not yet accepted, and an empty pool leaves nothing to find. -/
structure Ahead (n : Network) (source target : FeatureId) (le : Path → Path → Prop) (r : Ranking) :
    Prop where
  covered : ∀ base ∈ r.earlier, ∀ passed spur t others, base.steps = passed ++ spur :: t :: others →
    (∀ y ys, r.latest.steps ≠ passed ++ spur :: y :: ys) → r.Covers n source target le passed spur
  ascending : r.accepted.Pairwise le
  least : ∀ p ∈ r.accepted, ∀ q, n.Admissible source target q → q ∉ r.accepted → le p q

/-- Once the latest path is explored, every spur of an accepted path is covered. -/
theorem Ahead.covers_explore (formed : n.WellFormed) (guides : Guides n source target le)
    (sound : r.Sound n source target) (ahead : r.Ahead n source target le) {base : Path}
    (member : base ∈ r.accepted) {passed others : List Step} {spur t : Step}
    (shape : base.steps = passed ++ spur :: t :: others) :
    (r.explore target).Covers n source target le passed spur := by
  intro s rest edge admissible atEdge fresh
  rw [accepted_explore] at fresh
  rw [explore_eq]
  by_cases onLatest : ∃ y ys, r.latest.steps = passed ++ spur :: y :: ys
  · obtain ⟨y, ys, shape'⟩ := onLatest
    have latest : n.Admissible source target ⟨passed ++ spur :: y :: ys⟩ := by
      rw [← shape']
      exact sound.admissible _ r.latest_mem
    obtain ⟨p, found, better⟩ := guides.detour sound.admissible admissible atEdge fresh
    obtain ⟨_, s', rest', _, steps, _⟩ := detour?_admissible formed latest found
    rw [← sound.network] at found
    have new := mem_detours.mpr ⟨passed, spur, y, ys, shape', found⟩
    exact ⟨p, _, sound.ordered.holds_pushAll.mpr (.inl ⟨rfl, new⟩), better, s', rest', steps⟩
  · have off : ∀ y ys, r.latest.steps ≠ passed ++ spur :: y :: ys :=
      fun y ys shape' => onLatest ⟨y, ys, shape'⟩
    have earlier : base ∈ r.earlier := by
      rcases List.mem_append.mp member with before | last
      · exact before
      · rw [List.mem_singleton.mp last] at shape
        exact absurd shape (off t others)
    obtain ⟨p, cost, holds, better, root⟩ :=
      ahead.covered base earlier passed spur t others shape off s rest edge admissible atEdge fresh
    exact ⟨p, cost, sound.ordered.holds_pushAll.mpr (.inr holds), better, root⟩

/-- Once the latest path is explored, the pool has for every path left out one that is no worse. -/
theorem Ahead.exists_pooled (formed : n.WellFormed) (guides : Guides n source target le)
    (sound : r.Sound n source target) (ahead : r.Ahead n source target le) {q : Path}
    (admissible : n.Admissible source target q) (other : q ∉ r.accepted) :
    ∃ p cost, (r.explore target).pool.Holds cost p ∧ le p q := by
  obtain ⟨base, member, passed, spur, s, rest, edge, t, others, shape, steps, atEdge, fresh⟩ :=
    Admissible.exists_branch sound.admissible admissible other r.latest_mem
  have same : q = ⟨passed ++ spur :: s :: rest⟩ := congrArg Path.mk steps
  subst same
  obtain ⟨p, cost, holds, better, _⟩ := ahead.covers_explore formed guides sound member shape s rest edge
    admissible atEdge (accepted_explore target r ▸ fresh)
  exact ⟨p, cost, holds, better⟩

/-- Accepting a path keeps a ranking ahead of all that it leaves out. -/
theorem Ahead.advance (formed : n.WellFormed) (guides : Guides n source target le)
    (sound : r.Sound n source target) (ahead : r.Ahead n source target le)
    (next : advance? target r = some r') : r'.Ahead n source target le := by
  obtain ⟨sound', earlier, first, cheapest, kept⟩ := sound.advance formed next
  have key {p : Path} {cost : Binary64} (holds : (r.explore target).pool.Holds cost p) :
      cost = n.pathCost p := ((sound.explore formed).pooled holds).1
  have mem_accepted {p : Path} : p ∈ r'.accepted ↔ p ∈ r.accepted ∨ p = r'.latest := by
    rw [accepted, earlier, List.mem_append, List.mem_singleton]
  have latest := sound'.admissible _ r'.latest_mem
  have fresh : r'.latest ∉ r.accepted := by
    rw [← accepted_explore target r]
    exact ((sound.explore formed).pooled first).2.2
  refine ⟨?_, ?_, ?_⟩
  · intro base member passed spur t others shape off s rest edge admissible atEdge unused
    rw [earlier] at member
    obtain ⟨p, cost, holds, better, y, ys, steps⟩ :=
      ahead.covers_explore formed guides sound member shape s rest edge admissible atEdge fun p old =>
        unused p (mem_accepted.mpr (.inl (accepted_explore target r ▸ old)))
    refine ⟨p, cost, kept.mpr ⟨holds, ?_⟩, better, y, ys, steps⟩
    rintro rfl
    exact off y ys steps
  · rw [accepted, earlier]
    refine List.pairwise_append.mpr ⟨ahead.ascending, List.pairwise_singleton .., fun p old q new => ?_⟩
    rw [List.mem_singleton.mp new]
    exact ahead.least p old _ latest fresh
  · intro p member q admissible other
    have out : q ∉ r.accepted := fun old => other (mem_accepted.mpr (.inl old))
    rcases mem_accepted.mp member with old | rfl
    · exact ahead.least p old q admissible out
    · obtain ⟨p', cost, holds, better⟩ := ahead.exists_pooled formed guides sound admissible out
      exact guides.trans (guides.of_rank (key holds ▸ cheapest holds)) better

/-- A run ends with as many paths as asked for or with all that there are, in order, and none that it leaves
out is better. -/
theorem Ahead.accept (formed : n.WellFormed) (guides : Guides n source target le)
    (sound : r.Sound n source target) (ahead : r.Ahead n source target le) (more : Nat) :
    (accept target more r).accepted.Pairwise le ∧
      (∀ p ∈ (accept target more r).accepted, ∀ q, n.Admissible source target q →
        q ∉ (accept target more r).accepted → le p q) ∧
      ((accept target more r).accepted.length = r.accepted.length + more ∨
        ∀ q, n.Admissible source target q → q ∈ (accept target more r).accepted) := by
  obtain ⟨last, ⟨sound', ahead'⟩, same, whole | ⟨_, none, _⟩⟩ :=
    exists_last (P := fun r => r.Sound n source target ∧ r.Ahead n source target le) ⟨sound, ahead⟩
      (fun both next => ⟨(both.1.advance formed next).1, both.2.advance formed guides both.1 next⟩) more
  · rw [same]
    exact ⟨ahead'.ascending, ahead'.least, .inl whole.2⟩
  · rw [same]
    refine ⟨ahead'.ascending, ahead'.least, .inr fun q admissible => ?_⟩
    apply Decidable.of_not_not
    intro other
    obtain ⟨p, cost, holds, _⟩ := ahead'.exists_pooled formed guides sound' admissible other
    exact advance?_eq_none target last none holds

end Ranking

variable {n : Network} {source target : FeatureId}

/-- The first of the alternatives is a path, if there is a first. -/
theorem Network.admissible_cheapestPath (formed : n.WellFormed) (known : n.containsVertex source = true)
    (found : (n.cheapestPath source target).isEmpty = false) :
    n.Admissible source target (n.cheapestPath source target) := by
  rcases cheapestPath_cases formed known target with
    ⟨steps, total, path, walk, nodup, finite, _⟩ | ⟨path, _⟩
  · rw [path]
    refine ⟨rfl, ?_, walk.isChain none, nodup, walk.unblocked, ?_⟩
    · have ends := Admissible.end?_append [] ⟨source, none⟩ steps
      rwa [walk.lastVertex] at ends
    · show n.Passable steps
      exact walk.passable formed finite
  · rw [path] at found
    cases found

/-- A ranking of the first path alone. -/
theorem Ranking.sound_first {first : Path} (admissible : n.Admissible source target first) :
    Ranking.Sound n source target ⟨n, [], first, .empty⟩ := by
  refine ⟨rfl, fun p member => ?_, List.pairwise_singleton _ first, Frontier.ordered_empty, fun holds => ?_⟩
  · rw [List.mem_singleton.mp member]
    exact admissible
  · exact absurd holds Frontier.not_holds_empty

/-- Whatever the costs, the alternatives are different paths of the network, at most as many as asked
for. -/
theorem Network.alternatives_sound (formed : n.WellFormed) (known : n.containsVertex source = true)
    (target : FeatureId) (count : Nat) :
    (∀ p ∈ (n.alternatives source target count).1, n.Admissible source target p) ∧
      (n.alternatives source target count).1.Nodup ∧
      (n.alternatives source target count).1.length ≤ count := by
  unfold alternatives
  cases count with
  | zero => simp
  | succ more =>
    dsimp only
    split
    · simp
    · next found =>
      have first := admissible_cheapestPath formed known (Bool.not_eq_true _ ▸ found)
      obtain ⟨sound, length⟩ := (Ranking.sound_first first).accept formed more
      refine ⟨sound.admissible, sound.nodup, Nat.le_trans length ?_⟩
      simp only [Ranking.accepted, List.nil_append, List.length_singleton]
      omega

/-- Under an order that guides the search, the alternatives are in order, as many as asked for or all that
there are, and no path left out is better than one of them. -/
theorem Network.alternatives_least (formed : n.WellFormed) (known : n.containsVertex source = true)
    {le : Path → Path → Prop} (guides : Ranking.Guides n source target le) (more : Nat) :
    (n.alternatives source target (more + 1)).1.Pairwise le ∧
      (∀ p ∈ (n.alternatives source target (more + 1)).1, ∀ q, n.Admissible source target q →
        q ∉ (n.alternatives source target (more + 1)).1 → le p q) ∧
      ((n.alternatives source target (more + 1)).1.length = more + 1 ∨
        ∀ q, n.Admissible source target q → q ∈ (n.alternatives source target (more + 1)).1) := by
  unfold alternatives
  dsimp only
  split
  · next empty =>
    refine ⟨.nil, by simp, .inr fun q admissible => ?_⟩
    have found := (guides.first admissible).1
    rw [empty] at found
    cases found
  · next found =>
    have first := admissible_cheapestPath formed known (Bool.not_eq_true _ ▸ found)
    have ahead : Ranking.Ahead n source target le ⟨n, [], n.cheapestPath source target, .empty⟩ := by
      refine ⟨fun base member => absurd member List.not_mem_nil, List.pairwise_singleton .., ?_⟩
      intro p member q admissible _
      rw [List.mem_singleton.mp member]
      exact (guides.first admissible).2
    obtain ⟨ascending, least, all⟩ := ahead.accept formed guides (Ranking.sound_first first) more
    refine ⟨ascending, least, all.imp_left fun length => ?_⟩
    rw [length]
    simp only [Ranking.accepted, List.nil_append, List.length_singleton]
    omega

end FeatureNet
