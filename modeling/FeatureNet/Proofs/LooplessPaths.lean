import FeatureNet.Proofs.Walks

namespace FeatureNet

open Binary64 Network

theorem Edge.opposite_of_leaves {e : Edge} {u w : FeatureId} (atU : e.Leaves u) (atW : e.Leaves w)
    (apart : u ≠ w) : e.opposite w = u := by
  unfold opposite
  rcases atU with sourceU | ⟨_, targetU⟩
  · have notSource : w ≠ e.source := fun sourceW => apart (sourceU.trans sourceW.symm)
    rw [if_neg notSource, sourceU]
  · rcases atW with sourceW | ⟨_, targetW⟩
    · rw [if_pos sourceW, targetU]
    · exact absurd (targetU.trans targetW.symm) apart

/-- A path goes on after a root by an edge. -/
def Path.Continues (p : Path) (root : List Step) (edge : FeatureId) : Prop :=
  ∃ s rest, p.steps = root ++ s :: rest ∧ s.edge = some edge

namespace Network

/-- No edge of the steps costs infinity. -/
def Passable (n : Network) (steps : List Step) : Prop := ∀ cost ∈ n.stepCosts steps, cost.isFinite = true

/-- A path as the search for alternatives is after: from source to target over listed edges of finite
cost, past no blocked vertex and no vertex twice. -/
structure Admissible (n : Network) (source target : FeatureId) (p : Path) : Prop where
  start : p.steps.head? = some ⟨source, none⟩
  finish : p.end? = some target
  crossing : p.steps.IsChain fun a b => n.Crosses a.vertex b
  loopless : p.vertices.Nodup
  free : ∀ s ∈ p.steps.tail, n.isBlocked s.vertex = false
  passable : n.Passable p.steps

variable {n : Network} {source target : FeatureId} {p q : Path} {passed rest steps : List Step}
  {spur first : Step} {total : Binary64}

theorem Crosses.eq {u : FeatureId} {s t : Step} (atS : n.Crosses u s) (atT : n.Crosses u t)
    (same : s.edge = t.edge) : s = t := by
  obtain ⟨edge, e, edgeS, _, found, overS⟩ := atS
  obtain ⟨edge', e', edgeT, _, found', overT⟩ := atT
  rw [edgeS, edgeT] at same
  cases same
  rw [found] at found'
  cases found'
  cases s
  cases t
  cases edgeS
  cases edgeT
  cases overS
  cases overT
  rfl

/-- A step over an edge listed at some other vertex too leads to that vertex. -/
theorem WellFormed.vertex_of_listed (formed : n.WellFormed) {u w edge : FeatureId} {s : Step}
    (crosses : n.Crosses w s) (atEdge : s.edge = some edge) (listed : edge ∈ n.outgoing u)
    (apart : u ≠ w) : s.vertex = u := by
  obtain ⟨edge', e, atEdge', listed', found, across⟩ := crosses
  rw [atEdge] at atEdge'
  cases atEdge'
  obtain ⟨f, found', leavesU⟩ := formed.listed.mp listed
  obtain ⟨f', found'', leavesW⟩ := formed.listed.mp listed'
  rw [found] at found' found''
  cases found'
  cases found''
  rw [← across, e.opposite_of_leaves leavesU leavesW apart]

/-- Steps that keep away from a vertex use none of the edges listed there. -/
theorem WellFormed.not_listed (formed : n.WellFormed) {u : FeatureId}
    (chain : (first :: steps).IsChain fun a b => n.Crosses a.vertex b)
    (away : ∀ s ∈ first :: steps, u ≠ s.vertex) :
    ∀ s ∈ steps, ∀ edge, s.edge = some edge → edge ∉ n.outgoing u := by
  induction steps generalizing first with
  | nil => exact fun s member => absurd member List.not_mem_nil
  | cons next steps ih =>
    obtain ⟨crosses, onward⟩ := List.isChain_cons_cons.mp chain
    intro s member edge atEdge listed
    rcases List.mem_cons.mp member with same | later
    · subst same
      have back := formed.vertex_of_listed crosses atEdge listed (away first (List.mem_cons_self ..))
      exact away s (List.mem_cons_of_mem _ member) back.symm
    · exact ih onward (fun t isStep => away t (List.mem_cons_of_mem _ isStep)) s later edge atEdge listed

/-- The edges tell the steps from one vertex on. -/
theorem steps_eq_of_edges {steps' : List Step}
    (chain : (first :: steps).IsChain fun a b => n.Crosses a.vertex b)
    (chain' : (first :: steps').IsChain fun a b => n.Crosses a.vertex b)
    (same : steps.filterMap (·.edge) = steps'.filterMap (·.edge)) : steps = steps' := by
  have some_edge {u : FeatureId} {s : Step} (crosses : n.Crosses u s) : ∃ edge, s.edge = some edge := by
    obtain ⟨edge, _, atEdge, _⟩ := crosses
    exact ⟨edge, atEdge⟩
  induction steps generalizing first steps' with
  | nil =>
    cases steps' with
    | nil => rfl
    | cons t steps' =>
      obtain ⟨edge, atEdge⟩ := some_edge (List.isChain_cons_cons.mp chain').1
      simp [atEdge] at same
  | cons s steps ih =>
    obtain ⟨crosses, onward⟩ := List.isChain_cons_cons.mp chain
    obtain ⟨edge, atEdge⟩ := some_edge crosses
    cases steps' with
    | nil => simp [atEdge] at same
    | cons t steps' =>
      obtain ⟨crosses', onward'⟩ := List.isChain_cons_cons.mp chain'
      obtain ⟨edge', atEdge'⟩ := some_edge crosses'
      rw [List.filterMap_cons_some atEdge, List.filterMap_cons_some atEdge'] at same
      obtain ⟨sameEdge, sameRest⟩ := List.cons.inj same
      have sameStep : s = t := crosses.eq crosses' (by rw [atEdge, atEdge', sameEdge])
      subst sameStep
      rw [ih onward onward' sameRest]

@[simp] theorem passable_append {a b : List Step} :
    n.Passable (a ++ b) ↔ n.Passable a ∧ n.Passable b := by
  simp [Passable, or_imp, forall_and]

/-- A walk of finite cost takes edges of finite cost only. -/
theorem Walk.passable (formed : n.WellFormed) {root v : FeatureId} (walk : n.Walk root steps v total)
    (finite : total.magnitude < infiniteMagnitude) : n.Passable steps := by
  induction walk with
  | here => simp [Passable, stepCosts]
  | @on steps u total edge e walk _ found _ ih =>
    have costU := walk.isCost_total formed
    have costE := formed.cost found
    have before := magnitude_le_add costU costE
    have edgeCost := magnitude_le_add_left costU costE
    refine passable_append.mpr ⟨ih (Nat.lt_of_le_of_lt before finite), fun cost member => ?_⟩
    have only : cost = e.cost := by simpa [stepCosts, edgeCost?, found] using member
    rw [only, isFinite_iff]
    exact Nat.lt_of_le_of_lt edgeCost finite

namespace Admissible

theorem exists_steps (admissible : n.Admissible source target p) :
    ∃ steps, p = ⟨⟨source, none⟩ :: steps⟩ := by
  have start := admissible.start
  cases p with
  | mk steps =>
    cases steps with
    | nil => cases start
    | cons s steps =>
      cases start
      exact ⟨steps, rfl⟩

theorem end?_append (passed : List Step) (spur : Step) (rest : List Step) :
    (⟨passed ++ spur :: rest⟩ : Path).end? = some (lastVertex spur.vertex rest) := by
  unfold Path.end?
  dsimp only
  cases rest using List.reverseRecOn with
  | nil => simp
  | append_singleton rest s =>
    rw [← List.cons_append, ← List.append_assoc, List.getLast?_concat, lastVertex_concat]
    rfl

theorem vertices_append (passed : List Step) (spur : Step) (rest : List Step) :
    (⟨passed ++ spur :: rest⟩ : Path).vertices =
      passed.map (·.vertex) ++ (spur.vertex :: rest.map (·.vertex)) := by
  simp [Path.vertices]

/-- From any of its steps a path goes on by a walk to the target. -/
theorem onward (admissible : n.Admissible source target ⟨passed ++ spur :: rest⟩) :
    (∃ total, n.Walk spur.vertex rest target total) ∧ (spur.vertex :: rest.map (·.vertex)).Nodup ∧
      n.Passable rest := by
  have finish := admissible.finish
  rw [end?_append] at finish
  have last := Option.some.inj finish
  have chain := (List.isChain_append.mp admissible.crossing).2.1
  have loopless := admissible.loopless
  rw [vertices_append] at loopless
  refine ⟨?_, (List.nodup_append.mp loopless).2.1, ?_⟩
  · rw [← last]
    refine exists_walk (x := spur.edge) chain fun s member => admissible.free s ?_
    cases passed with
    | nil => exact member
    | cons t passed => exact List.mem_append_right _ (List.mem_cons_of_mem _ member)
  · have passable := admissible.passable
    rw [show passed ++ spur :: rest = passed ++ [spur] ++ rest by simp] at passable
    exact (passable_append.mp passable).2

/-- The root of a path and another walk to the target that keeps apart from the root. -/
theorem splice (admissible : n.Admissible source target ⟨passed ++ spur :: rest⟩)
    (walk : n.Walk spur.vertex steps target total) (passable : n.Passable steps)
    (nodup : (spur.vertex :: steps.map (·.vertex)).Nodup)
    (apart : ∀ t ∈ passed, ∀ s ∈ spur :: steps, t.vertex ≠ s.vertex) :
    n.Admissible source target ⟨passed ++ spur :: steps⟩ := by
  obtain ⟨before, _, _⟩ := List.isChain_append.mp
    ((List.append_assoc passed [spur] rest).symm ▸ admissible.crossing :
      (passed ++ [spur] ++ rest).IsChain fun a b => n.Crosses a.vertex b)
  refine ⟨?_, ?_, ?_, ?_, ?_, ?_⟩
  · have start := admissible.start
    cases passed <;> exact start
  · rw [end?_append, walk.lastVertex]
  · exact List.isChain_split.mpr ⟨before, walk.isChain spur.edge⟩
  · have loopless := admissible.loopless
    rw [vertices_append] at loopless ⊢
    refine List.nodup_append.mpr ⟨(List.nodup_append.mp loopless).1, nodup, fun a atA b atB => ?_⟩
    obtain ⟨t, isPassed, rfl⟩ := List.mem_map.mp atA
    rw [← List.map_cons] at atB
    obtain ⟨s, isStep, rfl⟩ := List.mem_map.mp atB
    exact apart t isPassed s isStep
  · have free := admissible.free
    cases passed with
    | nil => exact walk.unblocked
    | cons t passed =>
      intro s member
      have member' : s ∈ (passed ++ [spur]) ++ steps := by simpa using member
      rcases List.mem_append.mp member' with old | new
      · exact free s (by simpa using Or.imp_right Or.inl (List.mem_append.mp old))
      · exact walk.unblocked s new
  · have old := admissible.passable
    rw [show passed ++ spur :: rest = passed ++ [spur] ++ rest by simp] at old
    rw [show passed ++ spur :: steps = passed ++ [spur] ++ steps by simp]
    exact passable_append.mpr ⟨(passable_append.mp old).1, passable⟩

/-- The steps passed keep apart from the spur and what comes after. -/
theorem apart (admissible : n.Admissible source target ⟨passed ++ spur :: rest⟩) :
    ∀ t ∈ passed, ∀ s ∈ spur :: rest, t.vertex ≠ s.vertex := by
  have loopless := admissible.loopless
  rw [vertices_append] at loopless
  intro t isPassed s isStep
  refine (List.nodup_append.mp loopless).2.2 _ (List.mem_map_of_mem isPassed) _ ?_
  rw [← List.map_cons]
  exact List.mem_map_of_mem isStep

/-- A path reaches its target with its last step only. -/
theorem passed_ne_target (admissible : n.Admissible source target ⟨passed ++ spur :: rest⟩) :
    ∀ t ∈ passed, target ≠ t.vertex := by
  intro t isPassed same
  obtain ⟨⟨total, walk⟩, _⟩ := admissible.onward
  have last := walk.lastVertex
  cases rest using List.reverseRecOn with
  | nil =>
    rw [lastVertex_nil] at last
    exact admissible.apart t isPassed spur (List.mem_cons_self ..) (same.symm.trans last.symm)
  | append_singleton rest s =>
    rw [lastVertex_concat] at last
    refine admissible.apart t isPassed s ?_ (same.symm.trans last.symm)
    exact List.mem_cons_of_mem _ (List.mem_concat_self ..)

theorem spur_ne_target {s : Step} (admissible : n.Admissible source target ⟨passed ++ spur :: s :: rest⟩) :
    spur.vertex ≠ target := by
  have longer : n.Admissible source target ⟨(passed ++ [spur]) ++ s :: rest⟩ := by simpa using admissible
  exact (longer.passed_ne_target spur (List.mem_concat_self ..)).symm

/-- No path goes on where another one ends. -/
theorem eq_of_beginning (whole : n.Admissible source target ⟨passed ++ [spur]⟩)
    (longer : n.Admissible source target ⟨passed ++ spur :: rest⟩) : rest = [] := by
  have ends := whole.finish
  rw [end?_append, lastVertex_nil] at ends
  cases rest with
  | nil => rfl
  | cons s rest => exact absurd (Option.some.inj ends) longer.spur_ne_target

/-- Two paths that share a root and go on by one edge share the next step. -/
theorem next_eq {s t : Step} {others : List Step}
    (mine : n.Admissible source target ⟨passed ++ spur :: s :: rest⟩)
    (other : n.Admissible source target ⟨passed ++ spur :: t :: others⟩) (same : s.edge = t.edge) :
    s = t := by
  have crosses := (List.isChain_cons_cons.mp (List.isChain_append.mp mine.crossing).2.1).1
  have crosses' := (List.isChain_cons_cons.mp (List.isChain_append.mp other.crossing).2.1).1
  exact crosses.eq crosses' same

theorem listed {s : Step} {edge : FeatureId}
    (admissible : n.Admissible source target ⟨passed ++ spur :: s :: rest⟩) (atEdge : s.edge = some edge) :
    edge ∈ n.outgoing spur.vertex := by
  obtain ⟨edge', e, atEdge', listed, _⟩ :=
    (List.isChain_cons_cons.mp (List.isChain_append.mp admissible.crossing).2.1).1
  rw [atEdge] at atEdge'
  cases atEdge'
  exact listed

theorem exists_edge {s : Step} (admissible : n.Admissible source target ⟨passed ++ spur :: s :: rest⟩) :
    ∃ edge, s.edge = some edge := by
  obtain ⟨edge, _, atEdge, _⟩ :=
    (List.isChain_cons_cons.mp (List.isChain_append.mp admissible.crossing).2.1).1
  exact ⟨edge, atEdge⟩

theorem known (formed : n.WellFormed) {s : Step}
    (admissible : n.Admissible source target ⟨passed ++ spur :: s :: rest⟩) :
    n.containsVertex spur.vertex = true := by
  obtain ⟨edge, atEdge⟩ := admissible.exists_edge
  obtain ⟨e, found, leaves⟩ := formed.listed.mp (admissible.listed atEdge)
  obtain ⟨source, target⟩ := formed.ends found
  rcases leaves with atSource | ⟨_, atTarget⟩
  · exact atSource ▸ source
  · exact atTarget ▸ target

/-- Paths of the same edges are the same. -/
theorem eq_of_edges (mine : n.Admissible source target p) (other : n.Admissible source target q)
    (same : p.edges = q.edges) : p = q := by
  obtain ⟨steps, rfl⟩ := mine.exists_steps
  obtain ⟨steps', rfl⟩ := other.exists_steps
  have equal : steps.filterMap (·.edge) = steps'.filterMap (·.edge) := by
    simpa [Path.edges] using same
  rw [steps_eq_of_edges mine.crossing other.crossing equal]

theorem sameEdges_iff (mine : n.Admissible source target p) (other : n.Admissible source target q) :
    p.sameEdges q = true ↔ p = q := by
  constructor
  · exact fun same => mine.eq_of_edges other (by simpa using (Bool.and_eq_true_iff.mp same).2)
  · rintro rfl
    simp [Path.sameEdges]

/-- A path that is none of some others leaves the one it shares most with at a spur before the end, by an
edge by which none of them goes on there. -/
theorem exists_branch {paths : List Path} (each : ∀ p ∈ paths, n.Admissible source target p)
    (admissible : n.Admissible source target q) (other : q ∉ paths) (some_path : p ∈ paths) :
    ∃ base ∈ paths, ∃ passed spur s rest edge, ∃ t others, base.steps = passed ++ spur :: t :: others ∧
      q.steps = passed ++ spur :: s :: rest ∧ s.edge = some edge ∧
        ∀ p ∈ paths, ¬p.Continues (passed ++ [spur]) edge := by
  suffices general : ∀ (rest passed : List Step) (spur : Step) (base : Path), base ∈ paths →
      ∀ others, base = ⟨passed ++ spur :: others⟩ → q = ⟨passed ++ spur :: rest⟩ →
      ∃ base ∈ paths, ∃ passed spur s rest edge, ∃ t others, base.steps = passed ++ spur :: t :: others ∧
        q.steps = passed ++ spur :: s :: rest ∧ s.edge = some edge ∧
          ∀ p ∈ paths, ¬p.Continues (passed ++ [spur]) edge by
    obtain ⟨steps, rfl⟩ := admissible.exists_steps
    obtain ⟨others, rfl⟩ := (each p some_path).exists_steps
    exact general steps [] _ _ some_path others rfl rfl
  intro rest
  induction rest with
  | nil =>
    rintro passed spur base member others rfl rfl
    have all := admissible.eq_of_beginning (each _ member)
    subst all
    exact absurd member other
  | cons s rest ih =>
    rintro passed spur base member others rfl rfl
    obtain ⟨edge, atEdge⟩ := admissible.exists_edge
    by_cases taken : ∃ p ∈ paths, p.Continues (passed ++ [spur]) edge
    · obtain ⟨⟨_⟩, member', t, others', rfl, atEdge'⟩ := taken
      have shape : passed ++ [spur] ++ t :: others' = passed ++ spur :: t :: others' := by simp
      have admissible' := each _ member'
      rw [shape] at admissible'
      have same := admissible.next_eq admissible' (atEdge.trans atEdge'.symm)
      subst same
      exact ih (passed ++ [spur]) s _ member' others' rfl (by simp)
    · cases others with
      | nil =>
        have none := (each _ member).eq_of_beginning admissible
        cases none
      | cons t others =>
        exact ⟨_, member, passed, spur, s, rest, edge, t, others, rfl, rfl, atEdge,
          fun p isPath continues => taken ⟨p, isPath, continues⟩⟩

end Admissible

end Network

end FeatureNet
