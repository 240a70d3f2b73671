import FeatureNet.Proofs.RankingTurns
import FeatureNet.Proofs.UsableEdges

namespace FeatureNet

open Binary64 Network

variable {n m : Network} {source target : FeatureId}

namespace Hiding

variable {g h : Hiding}

/-- A usable edge stays usable under a scope unless the scope names it. -/
theorem Masks.usable? (masks : h.Masks n) (id : FeatureId) :
    h.network.usable? id = if id ∈ h.named then none else n.usable? id := by
  unfold Network.usable?
  rw [masks.edges]
  simp only [masks.isBlocked]
  cases n.edge? id with
  | none => simp
  | some e =>
    by_cases named : id ∈ h.named
    · have infinite : Binary64.infinity.isFinite = false := by decide
      simp [named, Option.filter, infinite]
    · simp [named]

theorem Masks.usableAt (masks : h.Masks n) (v : FeatureId) :
    h.network.usableAt v = (n.usableAt v).filter fun id => id ∉ h.named := by
  unfold Network.usableAt
  rw [masks.outgoing, List.filter_filter]
  refine List.filter_congr fun id _ => ?_
  rw [masks.usable?]
  by_cases named : id ∈ h.named <;> simp [named]

/-- Scopes over networks that are alike leave them alike if they name the same usable edges. -/
theorem Masks.alike (masks : h.Masks n) (masks' : g.Masks m) (alike : n.Alike m)
    (same : ∀ id e, n.usable? id = some e → (id ∈ h.named ↔ id ∈ g.named)) : h.network.Alike g.network where
  vertices v := by
    have both := alike.vertices v
    unfold containsVertex at both ⊢
    rw [masks.vertices, masks'.vertices, both]
  edges id := by
    rw [masks.usable?, masks'.usable?, ← alike.edges]
    cases usable : n.usable? id with
    | none => simp
    | some e => simp only [same id e usable]
  listed v := by
    rw [masks.usableAt, masks'.usableAt, ← alike.listed]
    refine List.filter_congr fun id member => ?_
    obtain ⟨e, usable⟩ := Option.isSome_iff_exists.mp (List.mem_filter.mp member).2
    simp only [same id e usable]

end Hiding

namespace Network

variable {p : Path} {steps : List Step} {first : Step}

/-- Steps of finite cost past unblocked vertices only take usable edges. -/
theorem usable_of_chain (formed : n.WellFormed)
    (chain : (first :: steps).IsChain fun a b => n.Crosses a.vertex b)
    (free : ∀ s ∈ first :: steps, n.isBlocked s.vertex = false) (passable : n.Passable steps) :
    ∀ s ∈ steps, ∀ edge, s.edge = some edge → ∃ e, n.usable? edge = some e := by
  induction steps generalizing first with
  | nil => exact fun s member => absurd member List.not_mem_nil
  | cons next steps ih =>
    obtain ⟨crosses, onward⟩ := List.isChain_cons_cons.mp chain
    have split : n.Passable ([next] ++ steps) := passable
    obtain ⟨now, later⟩ := passable_append.mp split
    intro s member edge atEdge
    rcases List.mem_cons.mp member with rfl | rest
    · obtain ⟨edge', e, atEdge', listed, found, across⟩ := crosses
      rw [atEdge] at atEdge'
      cases atEdge'
      obtain ⟨e', found', leaves⟩ := formed.listed.mp listed
      rw [found] at found'
      cases found'
      have finite : e.cost.isFinite = true := now _ (by simp [stepCosts, atEdge, edgeCost?, found])
      refine ⟨e, usable?_of_leaves found leaves finite (free first (List.mem_cons_self ..)) ?_⟩
      rw [across]
      exact free s (List.mem_cons_of_mem _ (List.mem_cons_self ..))
    · exact ih onward (fun t isStep => free t (List.mem_cons_of_mem _ isStep)) later s rest edge atEdge

/-- A path from an unblocked source takes usable edges only. -/
theorem Admissible.usable (formed : n.WellFormed) (admissible : n.Admissible source target p)
    (free : n.isBlocked source = false) : ∀ edge ∈ p.edges, ∃ e, n.usable? edge = some e := by
  obtain ⟨steps, rfl⟩ := admissible.exists_steps
  intro edge member
  obtain ⟨s, isStep, atEdge⟩ := List.mem_filterMap.mp member
  have passable : n.Passable ([⟨source, none⟩] ++ steps) := admissible.passable
  refine usable_of_chain formed admissible.crossing (fun t isStep => ?_) (passable_append.mp passable).2 s ?_
    edge atEdge
  · rcases List.mem_cons.mp isStep with rfl | later
    · exact free
    · exact admissible.free t later
  · rcases List.mem_cons.mp isStep with rfl | later
    · cases atEdge
    · exact later

theorem Alike.pathCost (formed : n.WellFormed) (alike : n.Alike m)
    (admissible : n.Admissible source target p) (free : n.isBlocked source = false) :
    n.pathCost p = m.pathCost p := by
  unfold Network.pathCost
  rw [List.filterMap_congr fun edge member => ?_]
  obtain ⟨e, usable⟩ := admissible.usable formed free edge member
  rw [edgeCost?, edgeCost?, (usable?_eq_some.mp usable).1,
    (usable?_eq_some.mp (alike.edges edge ▸ usable)).1]

end Network

namespace Ranking

variable {accepted : List Path} {passed others : List Step} {spur t : Step} {p : Path} {r : Ranking}

/-- A usable edge is listed at the same vertices of networks that are alike. -/
theorem mem_outgoing_iff (formed : n.WellFormed) (formed' : m.WellFormed) (alike : n.Alike m) {id : FeatureId}
    {e : Edge} (usable : n.usable? id = some e) (v : FeatureId) : id ∈ n.outgoing v ↔ id ∈ m.outgoing v := by
  rw [formed.listed, formed'.listed, (usable?_eq_some.mp usable).1,
    (usable?_eq_some.mp (alike.edges id ▸ usable)).1]

theorem detour?_congr (formed : n.WellFormed) (formed' : m.WellFormed) (alike : n.Alike m)
    (free : n.isBlocked source = false) (base : n.Admissible source target ⟨passed ++ spur :: t :: others⟩)
    (accepted : List Path) :
    detour? n accepted target (passed, spur) = detour? m accepted target (passed, spur) := by
  obtain ⟨masks, named⟩ := masks_hideRoot n accepted passed spur
  obtain ⟨masks', named'⟩ := masks_hideRoot m accepted passed spur
  have under : (hideRoot n accepted passed spur).network.Alike (hideRoot m accepted passed spur).network := by
    refine masks.alike masks' alike fun id e usable => ?_
    rw [named, named']
    simp only [mem_outgoing_iff formed formed' alike usable]
  obtain ⟨edge, atEdge⟩ := base.exists_edge
  have onPath : edge ∈ (⟨passed ++ spur :: t :: others⟩ : Path).edges :=
    List.mem_filterMap.mpr ⟨t, by simp, atEdge⟩
  obtain ⟨e, usable⟩ := base.usable formed free edge onPath
  have usable' := alike.edges edge ▸ usable
  obtain ⟨e', found, leaves⟩ := formed.listed.mp (base.listed atEdge)
  rw [(usable?_eq_some.mp usable).1] at found
  cases found
  have spurFree := (free_of_usable? usable leaves).1
  have spurFree' := (free_of_usable? usable' leaves).1
  unfold detour?
  dsimp only
  rw [under.cheapestPath (masks.wellFormed formed) (masks'.wellFormed formed')
    ((masks.isBlocked _).trans spurFree) ((masks'.isBlocked _).trans spurFree')]

theorem detours_congr (formed : n.WellFormed) (formed' : m.WellFormed) (alike : n.Alike m)
    (free : n.isBlocked source = false) (latest : n.Admissible source target p) (accepted : List Path) :
    detours n accepted target p = detours m accepted target p := by
  refine List.filterMap_congr fun ⟨passed, spur⟩ member => ?_
  obtain ⟨_, t, others, rfl, shape⟩ := mem_spurs.mp member
  have base : n.Admissible source target ⟨passed ++ spur :: t :: others⟩ := by
    rw [← shape]
    exact latest
  exact detour?_congr formed formed' alike free base accepted

/-- Exploring on an alike network differs in the network alone. -/
theorem Sound.explore_congr (formed : n.WellFormed) (formed' : m.WellFormed) (alike : n.Alike m)
    (free : n.isBlocked source = false) (sound : r.Sound n source target) :
    ({ r with network := m } : Ranking).explore target = { r.explore target with network := m } := by
  have latest := sound.admissible _ r.latest_mem
  have same : ({ r with network := m } : Ranking).accepted = r.accepted := rfl
  rw [explore_eq, explore_eq, same, sound.network]
  dsimp only
  rw [← detours_congr formed formed' alike free latest r.accepted]
  have pools : r.pool.pushAll m.pathCost (detours n r.accepted target r.latest) =
      r.pool.pushAll n.pathCost (detours n r.accepted target r.latest) := by
    refine List.foldl_ext _ _ _ fun pool p member => ?_
    obtain ⟨passed, spur, t, others, shape, found⟩ := mem_detours.mp member
    have base : n.Admissible source target ⟨passed ++ spur :: t :: others⟩ := by
      rw [← shape]
      exact latest
    rw [alike.pathCost formed (detour?_admissible formed base found).1 free]
  rw [pools]

theorem Sound.accept_congr (formed : n.WellFormed) (formed' : m.WellFormed) (alike : n.Alike m)
    (free : n.isBlocked source = false) (sound : r.Sound n source target) (more : Nat) :
    (Ranking.accept target more { r with network := m }).accepted =
      (Ranking.accept target more r).accepted := by
  induction more generalizing r with
  | zero => rfl
  | succ more ih =>
    have explored := sound.explore_congr formed formed' alike free
    rw [accept_succ, accept_succ]
    have step : advance? target { r with network := m } =
        (advance? target r).map fun r' => { r' with network := m } := by
      unfold advance?
      rw [explored]
      dsimp only
      cases (r.explore target).pool.popMin? <;> rfl
    rw [step]
    cases next : advance? target r with
    | none =>
      dsimp only [Option.map_none]
      rw [explored]
      rfl
    | some r' => exact ih (sound.advance formed next).1

end Ranking

namespace Network

/-- Networks that are alike have the same alternatives: the scope of a spur hides the same usable edges of
both, so that they are alike under it too and the pools never differ. -/
theorem Alike.alternatives (formed : n.WellFormed) (formed' : m.WellFormed) (alike : n.Alike m)
    (free : n.isBlocked source = false) (free' : m.isBlocked source = false) (target : FeatureId)
    (count : Nat) : (n.alternatives source target count).1 = (m.alternatives source target count).1 := by
  cases known : n.containsVertex source with
  | false => rw [alternatives_unknown known, alternatives_unknown (alike.vertices source ▸ known)]
  | true =>
    unfold Network.alternatives
    rw [← alike.cheapestPath formed formed' free free' target]
    cases count with
    | zero => rfl
    | succ more =>
      cases found : (n.cheapestPath source target).isEmpty with
      | true => simp [found]
      | false =>
        have sound := Ranking.sound_first (admissible_cheapestPath formed known found)
        simp only [found, Bool.false_eq_true, if_false]
        exact (sound.accept_congr formed formed' alike free more).symm

end Network

end FeatureNet
