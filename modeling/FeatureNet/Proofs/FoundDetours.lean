import FeatureNet.Proofs.DistinctPaths

namespace FeatureNet

open Binary64 Network

variable {n : Network} {source target : FeatureId}

namespace Ranking

variable {r r' : Ranking} {accepted : List Path} {p q detour : Path}

/-- One of the paths accepted is left by a detour, as found when it was the latest of them. -/
def Leaves (n : Network) (target : FeatureId) (accepted : List Path) (detour : Path) : Prop :=
  ∃ before base after, accepted = before ++ base :: after ∧ detour ∈ detours n (before ++ [base]) target base

/-- A detour by which one of the paths accepted is left is not accepted itself. -/
def Waits (n : Network) (target : FeatureId) (accepted : List Path) (detour : Path) : Prop :=
  detour ∉ accepted ∧ Leaves n target accepted detour

theorem leaves_concat {p : Path} :
    Leaves n target (accepted ++ [p]) detour ↔
      Leaves n target accepted detour ∨ detour ∈ detours n (accepted ++ [p]) target p := by
  constructor
  · rintro ⟨before, base, after, split, member⟩
    rcases concat_eq_append_cons split with ⟨rfl, rfl⟩ | ⟨rest, rfl⟩
    · exact .inr member
    · exact .inl ⟨before, base, rest, rfl, member⟩
  · rintro (⟨before, base, after, rfl, member⟩ | member)
    · exact ⟨before, base, after ++ [p], by simp, member⟩
    · exact ⟨accepted, p, [], rfl, member⟩

/-- The detours by which paths accepted after others are left. -/
def foundAfter (n : Network) (target : FeatureId) (before : List Path) : List Path → List Path
  | [] => []
  | base :: rest => detours n (before ++ [base]) target base ++ foundAfter n target (before ++ [base]) rest

/-- The detours by which the paths accepted are left, in the order in which they are found. One that is found
again is listed again. -/
def found (n : Network) (target : FeatureId) (accepted : List Path) : List Path := foundAfter n target [] accepted

theorem found_concat (n : Network) (target : FeatureId) (accepted : List Path) (p : Path) :
    found n target (accepted ++ [p]) = found n target accepted ++ detours n (accepted ++ [p]) target p := by
  suffices after : ∀ before, foundAfter n target before (accepted ++ [p]) =
      foundAfter n target before accepted ++ detours n (before ++ (accepted ++ [p])) target p from after []
  induction accepted with
  | nil => exact fun before => List.append_nil _
  | cons base rest ih =>
    intro before
    rw [List.cons_append, foundAfter, foundAfter, ih, List.append_assoc, List.append_assoc, List.singleton_append]

theorem mem_found : detour ∈ found n target accepted ↔ Leaves n target accepted detour := by
  induction accepted using List.reverseRecOn with
  | nil =>
    refine ⟨fun member => absurd member List.not_mem_nil, ?_⟩
    rintro ⟨before, base, after, split, _⟩
    exact absurd split.symm (by simp)
  | append_singleton rest p ih => rw [found_concat, List.mem_append, ih, leaves_concat]

/-- A detour is taken before another: it costs less, or as much and was found first. The two zeros are two
costs here. -/
def Precedes (n : Network) (target : FeatureId) (accepted : List Path) (p q : Path) : Prop :=
  (n.pathCost p).rank < (n.pathCost q).rank ∨
    n.pathCost p = n.pathCost q ∧ (found n target accepted).idxOf p < (found n target accepted).idxOf q

/-- The detour that is accepted next. -/
def Next (n : Network) (target : FeatureId) (accepted : List Path) (p : Path) : Prop :=
  Waits n target accepted p ∧ ∀ q, Waits n target accepted q → q ≠ p → Precedes n target accepted p q

theorem Precedes.asymm (first : Precedes n target accepted p q) : ¬Precedes n target accepted q p := by
  rintro (less | ⟨same, earlier⟩)
  · rcases first with less' | ⟨same', _⟩
    · omega
    · rw [same'] at less
      exact Int.lt_irrefl _ less
  · rcases first with less' | ⟨_, earlier'⟩
    · rw [same] at less'
      exact Int.lt_irrefl _ less'
    · omega

theorem Next.unique (next : Next n target accepted p) (next' : Next n target accepted q) : p = q := by
  by_contra other
  exact (next.2 q next'.1 (Ne.symm other)).asymm (next'.2 p next.1 other)

/-- The pool holds the detours found that are not accepted, numbered in the order in which they were found,
and each path accepted was the next one. -/
structure Queued (n : Network) (target : FeatureId) (r : Ranking) : Prop where
  next : r.pool.next = (found n target r.earlier).length
  pooled {cost number p} : (cost, number, p) ∈ r.pool.entries ↔
    cost = n.pathCost p ∧ p ∉ r.accepted ∧ (found n target r.earlier)[number]? = some p
  chosen {before p after} : r.accepted = before ++ p :: after → before ≠ [] → Next n target before p

variable {cost : Binary64} {number : Nat}

/-- Once the latest path is explored, the pool holds all that waits. -/
theorem Queued.pooled_explore (formed : n.WellFormed) (sound : r.Sound n source target)
    (queued : r.Queued n target) :
    (cost, number, p) ∈ (r.explore target).pool.entries ↔
      cost = n.pathCost p ∧ p ∉ r.accepted ∧ (found n target r.accepted)[number]? = some p := by
  have fresh (member : p ∈ detours n r.accepted target r.latest) : p ∉ r.accepted := by
    have pooled : (r.explore target).pool.Holds (n.pathCost p) p := by
      rw [explore_eq, sound.network]
      exact sound.ordered.holds_pushAll.mpr (.inl ⟨rfl, member⟩)
    rw [← accepted_explore target r]
    exact ((sound.explore formed).pooled pooled).2.2
  rw [explore_eq, sound.network]
  dsimp only
  rw [sound.ordered.mem_pushAll, queued.pooled, queued.next, accepted, found_concat, ← accepted]
  constructor
  · rintro (⟨key, i, rfl, atP⟩ | ⟨key, out, atP⟩)
    · exact ⟨key, fresh (List.mem_of_getElem? atP), by rwa [List.getElem?_append_right (Nat.le_add_right _ _),
        Nat.add_sub_cancel_left]⟩
    · exact ⟨key, out, by rw [List.getElem?_append_left (List.getElem?_eq_some_iff.mp atP).1, atP]⟩
  · rintro ⟨key, out, atP⟩
    rcases Nat.lt_or_ge number (found n target r.earlier).length with old | new
    · exact .inr ⟨key, out, by rwa [List.getElem?_append_left old] at atP⟩
    · exact .inl ⟨key, number - (found n target r.earlier).length, by omega,
        by rwa [List.getElem?_append_right new] at atP⟩

theorem Queued.waits_iff (formed : n.WellFormed) (sound : r.Sound n source target) (queued : r.Queued n target) :
    Waits n target r.accepted p ↔ ∃ number, (n.pathCost p, number, p) ∈ (r.explore target).pool.entries := by
  simp only [queued.pooled_explore formed sound, true_and, exists_and_left, Waits, ← mem_found,
    List.mem_iff_getElem?]

/-- What is accepted next is what comes first in the pool. -/
theorem Queued.next_latest (formed : n.WellFormed) (sound : r.Sound n source target)
    (queued : r.Queued n target) (next : advance? target r = some r') : Next n target r.accepted r'.latest := by
  obtain ⟨_, _, cost, pool, taken, _⟩ := advance?_eq_some next
  obtain ⟨number, entries, above⟩ := (sound.explore formed).ordered.first taken
  have first : (cost, number, r'.latest) ∈ (r.explore target).pool.entries := entries ▸ List.mem_cons_self ..
  obtain ⟨rfl, _, atLatest⟩ := (queued.pooled_explore formed sound).mp first
  refine ⟨(queued.waits_iff formed sound).mpr ⟨number, first⟩, fun q waits other => ?_⟩
  -- The entry to compare with is the one by which the other detour was pooled first.
  have atQ := List.getElem?_idxOf (mem_found.mpr waits.2)
  have member := (queued.pooled_explore formed sound).mpr ⟨rfl, waits.1, atQ⟩
  rw [entries] at member
  rcases List.mem_cons.mp member with same | later
  · exact absurd (congrArg (·.2.2) same) other
  · rcases Frontier.before_iff.mp (above _ later) with less | ⟨same, earlier⟩
    · exact .inl less
    · have inTake : r'.latest ∈ (found n target r.accepted).take (number + 1) :=
        List.mem_of_getElem? ((List.getElem?_take_of_lt (Nat.lt_succ_self number)).trans atLatest)
      have byNumber := (List.mem_take_iff_idxOf_lt (List.mem_of_getElem? atLatest)).mp inTake
      exact .inr ⟨rank_inj.mp same, Nat.lt_of_le_of_lt (Nat.le_of_lt_succ byNumber) earlier⟩

theorem Queued.advance (formed : n.WellFormed) (sound : r.Sound n source target) (queued : r.Queued n target)
    (next : advance? target r = some r') : r'.Queued n target := by
  obtain ⟨_, earlier, cost, pool, taken, kept⟩ := advance?_eq_some next
  obtain ⟨_, _, same⟩ := Frontier.entries_of_popMin? taken
  refine ⟨?_, fun {cost number p} => ?_, fun {before p after} split later => ?_⟩
  · rw [earlier, kept]
    show pool.next = _
    rw [same, explore_eq, sound.network]
    show (r.pool.pushAll n.pathCost _).next = _
    rw [Frontier.next_pushAll, queued.next, accepted, found_concat, List.length_append, ← accepted]
  · have mem_accepted : p ∈ r'.accepted ↔ p ∈ r.accepted ∨ p = r'.latest := by
      rw [Ranking.accepted, earlier, List.mem_append, List.mem_singleton]
    rw [sound.mem_advance formed next, queued.pooled_explore formed sound, mem_accepted, earlier, not_or]
    constructor
    · rintro ⟨⟨key, out, atP⟩, other⟩
      exact ⟨key, ⟨out, other⟩, atP⟩
    · rintro ⟨key, ⟨out, other⟩, atP⟩
      exact ⟨⟨key, out, atP⟩, other⟩
  · rw [Ranking.accepted, earlier] at split
    rcases concat_eq_append_cons split with ⟨rfl, rfl⟩ | ⟨rest, old⟩
    · exact queued.next_latest formed sound next
    · exact queued.chosen old later

/-- Before a detour is found nothing waits. -/
theorem queued_first (n : Network) (target : FeatureId) (first : Path) :
    Queued n target ⟨n, [], first, .empty⟩ := by
  refine ⟨rfl, fun {cost number p} => ⟨fun member => absurd member List.not_mem_nil, ?_⟩,
    fun {before p after} split later => ?_⟩
  · rintro ⟨_, _, atP⟩
    exact absurd (List.mem_of_getElem? atP) List.not_mem_nil
  · have length := congrArg List.length split
    have positive := List.length_pos_of_ne_nil later
    simp only [accepted, List.nil_append, List.length_append, List.length_cons, List.length_nil] at length
    omega

/-- Every run accepts the next detour again and again, until as many are accepted as asked for or none waits. -/
theorem Queued.accept (formed : n.WellFormed) (sound : r.Sound n source target) (queued : r.Queued n target)
    (more : Nat) :
    (∀ {before p after}, (accept target more r).accepted = before ++ p :: after → before ≠ [] →
        Next n target before p) ∧
      ((accept target more r).accepted.length = r.accepted.length + more ∨
        ∀ q, ¬Waits n target (accept target more r).accepted q) := by
  obtain ⟨last, ⟨sound', queued'⟩, same, run⟩ :=
    exists_last (P := fun r => r.Sound n source target ∧ r.Queued n target) ⟨sound, queued⟩
      (fun both next => ⟨(both.1.advance formed next).1, both.2.advance formed both.1 next⟩) more
  rw [same]
  refine ⟨fun {before p after} => queued'.chosen, ?_⟩
  rcases run with ⟨_, length⟩ | ⟨_, ended, _⟩
  · exact .inl length
  · refine .inr fun q waits => ?_
    obtain ⟨number, member⟩ := (queued'.waits_iff formed sound').mp waits
    exact advance?_eq_none target last ended ⟨number, member⟩

end Ranking

namespace Network

variable {count : Nat} {l l' : List Path}

/-- A list of paths as a search for so many gives it: the cheapest path first, behind it the detours that
wait, the next one each time, and when it ends short none waits. -/
structure Ranked (n : Network) (source target : FeatureId) (count : Nat) (l : List Path) : Prop where
  first : l.head? = if count = 0 ∨ (n.cheapestPath source target).isEmpty = true then none
    else some (n.cheapestPath source target)
  most : l.length ≤ count
  next {before p after} : l = before ++ p :: after → before ≠ [] → Ranking.Next n target before p
  ended : l ≠ [] → l.length < count → ∀ q, ¬Ranking.Waits n target l q

theorem alternatives_ranked (formed : n.WellFormed) (source target : FeatureId) (count : Nat) :
    n.Ranked source target count (n.alternatives source target count).1 := by
  have first := n.head?_alternatives source target count
  rcases alternatives_cases formed source target count with none | ⟨more, rfl, sound, run⟩
  · rw [none] at first ⊢
    exact ⟨first, Nat.zero_le _, fun {before p after} split => absurd split.symm (by simp),
      fun some => absurd rfl some⟩
  · have most := (sound.accept formed more).2
    obtain ⟨next, all⟩ := (Ranking.queued_first n target _).accept formed sound more
    have one (first : Path) : (⟨n, [], first, .empty⟩ : Ranking).accepted.length = 1 := rfl
    rw [← run, one, Nat.add_comm 1] at most all
    rw [← run] at next
    exact ⟨first, most, next, fun _ short => all.resolve_left (Nat.ne_of_lt short)⟩

/-- Behind what they share, two lists ranked alike go on alike. -/
theorem Ranked.rest_eq {before rest rest' : List Path} (some : before ≠ [])
    (ranked : n.Ranked source target count (before ++ rest))
    (ranked' : n.Ranked source target count (before ++ rest')) : rest = rest' := by
  induction rest generalizing before rest' with
  | nil =>
    cases rest' with
    | nil => rfl
    | cons q after =>
      have waits := (ranked'.next rfl some).1
      have most := ranked'.most
      rw [List.append_nil] at ranked
      simp only [List.length_append, List.length_cons] at most
      exact absurd waits (ranked.ended some (by omega) q)
  | cons p rest ih =>
    have next := ranked.next rfl some
    cases rest' with
    | nil =>
      have most := ranked.most
      rw [List.append_nil] at ranked'
      simp only [List.length_append, List.length_cons] at most
      exact absurd next.1 (ranked'.ended some (by omega) p)
    | cons q after =>
      obtain rfl := next.unique (ranked'.next rfl some)
      rw [List.append_cons] at ranked ranked'
      rw [ih (by simp) ranked ranked']

/-- The alternatives are the one list ranked so. -/
theorem ranked_iff (formed : n.WellFormed) (source target : FeatureId) (count : Nat) (l : List Path) :
    n.Ranked source target count l ↔ l = (n.alternatives source target count).1 := by
  have ranked' := alternatives_ranked formed source target count
  constructor
  · intro ranked
    have heads := ranked.first.trans ranked'.first.symm
    cases l with
    | nil => exact (List.head?_eq_none_iff.mp heads.symm).symm
    | cons p rest =>
      obtain ⟨rest', split⟩ := List.head?_eq_some_iff.mp heads.symm
      rw [split] at ranked' ⊢
      have whole : n.Ranked source target count ([p] ++ rest) := ranked
      rw [whole.rest_eq (List.cons_ne_nil _ _) ranked']
  · rintro rfl
    exact ranked'

end Network

end FeatureNet
