import FeatureNet.Proofs.LooplessPaths
import FeatureNet.Proofs.TreePaths

namespace FeatureNet

open Binary64 Network

/-- None of the steps takes an edge that a scope names. -/
def Hiding.Spares (h : Hiding) (steps : List Step) : Prop :=
  ∀ s ∈ steps, ∀ edge, s.edge = some edge → edge ∉ h.named

namespace Hiding.Masks

variable {h : Hiding} {n : Network} {root v : FeatureId} {steps : List Step} {total : Binary64}

theorem wellFormed (masks : h.Masks n) (formed : n.WellFormed) : h.network.WellFormed :=
  formed.hide masks.vertices masks.edges

theorem narrows (masks : h.Masks n) : n.Narrows h.network where
  vertices v := by rw [containsVertex, containsVertex, masks.vertices]
  outgoing := masks.outgoing
  blocked blocked := (masks.isBlocked _).trans blocked
  edges found finite := by
    rw [masks.edges] at found
    obtain ⟨own, atEdge, rfl⟩ := Option.map_eq_some_iff.mp found
    split at finite
    · exact absurd (magnitude_infinity ▸ finite) (Nat.lt_irrefl _)
    · next unnamed => rw [atEdge, if_neg unnamed]

/-- A walk of finite cost under a scope is a walk over edges that the scope does not name. -/
theorem walk (masks : h.Masks n) (formed : n.WellFormed) (walk : h.network.Walk root steps v total)
    (finite : total.magnitude < infiniteMagnitude) :
    n.Walk root steps v total ∧ h.Spares steps := by
  obtain ⟨inside, taken⟩ := masks.narrows.walk (masks.wellFormed formed) walk finite
  refine ⟨inside, fun s member edge atS named => ?_⟩
  obtain ⟨e, found, cost⟩ := taken s member edge atS
  rw [masks.edges] at found
  obtain ⟨own, _, rfl⟩ := Option.map_eq_some_iff.mp found
  rw [if_pos named] at cost
  exact absurd (magnitude_infinity ▸ cost) (Nat.lt_irrefl _)

/-- A walk over edges that a scope does not name is a walk under the scope. -/
theorem walk_of_spares (masks : h.Masks n) (walk : n.Walk root steps v total) (spares : h.Spares steps) :
    h.network.Walk root steps v total := by
  induction walk with
  | here => exact .here
  | @on steps u total edge e _ listed found free ih =>
    have notNamed := spares _ (List.mem_concat_self ..) edge rfl
    have before := ih fun s member => spares s (List.mem_append_left _ member)
    refine before.on (masks.outgoing u ▸ listed) ?_ ((masks.isBlocked _).trans free)
    rw [masks.edges, found, Option.map_some, if_neg notNamed]

end Hiding.Masks

theorem Path.continues_iff {p : Path} {root : List Step} {edge : FeatureId} :
    p.Continues root edge ↔ (root.length < p.length && p.startsWith root) = true ∧
      p.steps[root.length]?.bind (·.edge) = some edge := by
  constructor
  · rintro ⟨s, rest, steps, atEdge⟩
    simp [Path.length, Path.startsWith, steps, atEdge]
  · rintro ⟨begins, next⟩
    obtain ⟨s, atRoot, atEdge⟩ := Option.bind_eq_some_iff.mp next
    obtain ⟨inside, rfl⟩ := List.getElem?_eq_some_iff.mp atRoot
    have front : p.steps.take root.length = root := by
      simpa [Path.startsWith] using (Bool.and_eq_true_iff.mp begins).2
    refine ⟨_, p.steps.drop (root.length + 1), ?_, atEdge⟩
    rw [← List.drop_eq_getElem_cons inside]
    conv_lhs => rw [← List.take_append_drop root.length p.steps, front]

/-- A walk that takes none of the edges listed at a vertex does not pass it. -/
theorem Network.Walk.away {n : Network} {root u v : FeatureId} {steps : List Step} {total : Binary64}
    (walk : n.Walk root steps v total) (ends : v ≠ u)
    (unlisted : ∀ s ∈ steps, ∀ edge, s.edge = some edge → edge ∉ n.outgoing u) :
    ∀ w ∈ root :: steps.map (·.vertex), w ≠ u := by
  induction walk with
  | here =>
    intro w member
    rw [List.mem_singleton.mp member]
    exact ends
  | @on steps x total edge e _ listed _ _ ih =>
    have notHere : x ≠ u := by
      rintro rfl
      exact unlisted _ (List.mem_concat_self ..) edge rfl listed
    have before := ih notHere fun s member => unlisted s (List.mem_append_left _ member)
    intro w member
    rw [List.map_append, ← List.cons_append] at member
    rcases List.mem_append.mp member with old | new
    · exact before w old
    · rw [List.mem_singleton.mp new]
      exact ends

namespace Ranking

variable {n : Network} {source target : FeatureId} {accepted : List Path} {passed : List Step}
  {spur : Step} {p q : Path}

theorem masks_hideNext {h : Hiding} (masks : h.Masks n) (root : List Step) (p : Path) :
    (hideNext root h p).Masks n ∧
      ∀ id, id ∈ (hideNext root h p).named ↔ p.Continues root id ∨ id ∈ h.named := by
  have nothing (silent : ∀ id, ¬p.Continues root id) :
      h.Masks n ∧ ∀ id, id ∈ h.named ↔ p.Continues root id ∨ id ∈ h.named :=
    ⟨masks, fun id => by simp [silent id]⟩
  unfold hideNext
  split
  · next begins =>
    split
    · next edge next =>
      refine ⟨masks.hide edge, fun id => ?_⟩
      rw [Hiding.mem_named_hide, Path.continues_iff, next, Option.some.injEq, eq_comm (a := id)]
      simp only [begins, true_and]
    · next next =>
      refine nothing fun id continues => ?_
      rw [Path.continues_iff, next] at continues
      cases continues.2
  · next other =>
    exact nothing fun id continues => other (Path.continues_iff.mp continues).1

/-- What the scope of a spur hides. -/
theorem masks_hideRoot (n : Network) (accepted : List Path) (passed : List Step) (spur : Step) :
    (hideRoot n accepted passed spur).Masks n ∧
      ∀ id, id ∈ (hideRoot n accepted passed spur).named ↔
        (∃ t ∈ passed, id ∈ n.outgoing t.vertex) ∨ ∃ p ∈ accepted, p.Continues (passed ++ [spur]) id := by
  obtain ⟨masks, named⟩ := Hiding.Masks.foldl
    (fun _ p masks => masks_hideNext masks (passed ++ [spur]) p) (Hiding.masks_ofNetwork n) accepted
  obtain ⟨masks', named'⟩ := Hiding.Masks.foldl (f := fun h t => h.hideOutgoing t.vertex)
    (fun _ (t : Step) masks => masks.hideOutgoing t.vertex) masks passed
  refine ⟨masks', fun id => ?_⟩
  rw [hideRoot, named', named]
  simp [Hiding.ofNetwork, IdSet.not_mem_empty]

/-- The path by which the accepted ones are left at a spur, if there is a way on. It is none of the
accepted ones, since the scope of the spur hides the edges by which they go on there, and no other path
that leaves them at that spur is cheaper from the spur on. -/
def detour? (n : Network) (accepted : List Path) (target : FeatureId) (spur : List Step × Step) :
    Option Path :=
  let onward := (hideRoot n accepted spur.1 spur.2).network.cheapestPath spur.2.vertex target
  if onward.isEmpty then none else some ⟨spur.1 ++ spur.2 :: onward.steps.drop 1⟩

theorem leaveAt_eq (target : FeatureId) (r : Ranking) (spur : List Step × Step) :
    leaveAt target r spur =
      match detour? r.network r.accepted target spur with
      | none => r
      | some p => { r with pool := r.pool.push (r.network.pathCost p) p } := by
  unfold leaveAt detour?
  dsimp only
  rw [close_hideRoot]
  split <;> rfl

theorem detour?_cases (formed : n.WellFormed) (known : n.containsVertex spur.vertex = true)
    (accepted : List Path) (target : FeatureId) (passed : List Step) :
    (∃ steps total, detour? n accepted target (passed, spur) = some ⟨passed ++ spur :: steps⟩ ∧
      n.Walk spur.vertex steps target total ∧ (spur.vertex :: steps.map (·.vertex)).Nodup ∧
      total.magnitude < infiniteMagnitude ∧ (hideRoot n accepted passed spur).Spares steps ∧
      ∀ steps' total', n.Walk spur.vertex steps' target total' →
        (hideRoot n accepted passed spur).Spares steps' → total.magnitude ≤ total'.magnitude) ∨
    detour? n accepted target (passed, spur) = none ∧
      ∀ steps total, n.Walk spur.vertex steps target total →
        (hideRoot n accepted passed spur).Spares steps → infiniteMagnitude ≤ total.magnitude := by
  obtain ⟨masks, _⟩ := masks_hideRoot n accepted passed spur
  have known' : (hideRoot n accepted passed spur).network.containsVertex spur.vertex = true := by
    unfold containsVertex
    rw [masks.vertices]
    exact known
  rcases cheapestPath_cases (masks.wellFormed formed) known' target with
    ⟨steps, total, path, walk, nodup, finite, least⟩ | ⟨path, none⟩
  · obtain ⟨inside, spares⟩ := masks.walk formed walk finite
    refine .inl ⟨steps, total, ?_, inside, nodup, finite, spares, fun steps' total' walk' spares' => ?_⟩
    · unfold detour?
      rw [path]
      rfl
    · exact least steps' total' (masks.walk_of_spares walk' spares')
  · refine .inr ⟨?_, fun steps total walk spares => none steps total (masks.walk_of_spares walk spares)⟩
    unfold detour?
    rw [path]
    rfl

/-- A detour is a path of its own: it shares the root and goes on by an edge by which none of the accepted
paths goes on there. -/
theorem detour?_admissible (formed : n.WellFormed) {t : Step} {others : List Step}
    (base : n.Admissible source target ⟨passed ++ spur :: t :: others⟩)
    (found : detour? n accepted target (passed, spur) = some p) :
    n.Admissible source target p ∧ ∃ s rest edge, p.steps = passed ++ spur :: s :: rest ∧
      s.edge = some edge ∧ ∀ q ∈ accepted, ¬q.Continues (passed ++ [spur]) edge := by
  obtain ⟨_, named⟩ := masks_hideRoot n accepted passed spur
  rcases detour?_cases formed (base.known formed) accepted target passed with
    ⟨steps, total, path, walk, nodup, finite, spares, _⟩ | ⟨none, _⟩
  · rw [found] at path
    cases path
    have passable := walk.passable formed finite
    have admissible : n.Admissible source target ⟨passed ++ spur :: steps⟩ := by
      refine base.splice walk passable nodup fun r isPassed s isStep => ?_
      have notTarget : target ≠ r.vertex := base.passed_ne_target r isPassed
      have away := walk.away notTarget fun s member edge atEdge listed =>
        spares s member edge atEdge ((named edge).mpr (.inl ⟨r, isPassed, listed⟩))
      rw [← List.map_cons] at away
      exact (away s.vertex (List.mem_map_of_mem isStep)).symm
    refine ⟨admissible, ?_⟩
    cases steps with
    | nil =>
      have ends : spur.vertex = target := walk.lastVertex
      exact absurd ends base.spur_ne_target
    | cons s rest =>
      obtain ⟨edge, atEdge⟩ := admissible.exists_edge
      refine ⟨s, rest, edge, rfl, atEdge, fun q isAccepted continues => ?_⟩
      have hidden := (named edge).mpr (.inr ⟨q, isAccepted, continues⟩)
      exact spares s (List.mem_cons_self ..) edge atEdge hidden
  · rw [found] at none
    cases none

/-- The scope of a spur spares the paths that go on there by an edge of their own. -/
theorem hideRoot_spares (formed : n.WellFormed) (each : ∀ p ∈ accepted, n.Admissible source target p)
    {s : Step} {rest : List Step} {edge : FeatureId}
    (admissible : n.Admissible source target ⟨passed ++ spur :: s :: rest⟩) (atEdge : s.edge = some edge)
    (fresh : ∀ p ∈ accepted, ¬p.Continues (passed ++ [spur]) edge) :
    (hideRoot n accepted passed spur).Spares (s :: rest) := by
  obtain ⟨_, named⟩ := masks_hideRoot n accepted passed spur
  have chain := (List.isChain_append.mp admissible.crossing).2.1
  have onward := (List.isChain_cons_cons.mp chain).2
  intro t isStep edge' atEdge' isNamed
  rcases (named edge').mp isNamed with ⟨r, isPassed, listed⟩ | ⟨⟨_⟩, isAccepted, continues⟩
  · exact formed.not_listed chain (admissible.apart r isPassed) t isStep edge' atEdge' listed
  · rcases List.mem_cons.mp isStep with same | later
    · subst same
      rw [atEdge] at atEdge'
      cases atEdge'
      exact fresh _ isAccepted continues
    · -- The edge is listed at the spur, and a later step over it would lead back there.
      obtain ⟨t', others, rfl, atEdge''⟩ := continues
      have accepted' := each _ isAccepted
      rw [List.append_assoc, List.singleton_append] at accepted'
      have listed := accepted'.listed atEdge''
      refine formed.not_listed onward (fun x member => ?_) t later edge' atEdge' listed
      intro same
      refine (List.nodup_cons.mp admissible.onward.2.1).1 ?_
      rw [same]
      exact List.mem_map_of_mem member

/-- No path that goes on at a spur by an edge of its own is cheaper from there on than the detour. -/
theorem detour?_least (formed : n.WellFormed) (each : ∀ p ∈ accepted, n.Admissible source target p)
    {s : Step} {rest : List Step} {edge : FeatureId} {total : Binary64}
    (admissible : n.Admissible source target ⟨passed ++ spur :: s :: rest⟩) (atEdge : s.edge = some edge)
    (fresh : ∀ p ∈ accepted, ¬p.Continues (passed ++ [spur]) edge)
    (walk : n.Walk spur.vertex (s :: rest) target total) (finite : total.magnitude < infiniteMagnitude) :
    ∃ steps total', detour? n accepted target (passed, spur) = some ⟨passed ++ spur :: steps⟩ ∧
      n.Walk spur.vertex steps target total' ∧ total'.magnitude ≤ total.magnitude := by
  have spares := hideRoot_spares formed each admissible atEdge fresh
  rcases detour?_cases formed (admissible.known formed) accepted target passed with
    ⟨steps, total', path, walk', _, _, _, least⟩ | ⟨_, none⟩
  · exact ⟨steps, total', path, walk', least _ _ walk spares⟩
  · exact absurd finite (Nat.not_lt.mpr (none _ _ walk spares))

end Ranking

end FeatureNet
