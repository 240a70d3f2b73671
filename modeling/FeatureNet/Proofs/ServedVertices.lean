import FeatureNet.Proofs.BuiltNetworks
import FeatureNet.Search.Reach

namespace FeatureNet

/-- The vertices that are served: the seeds, even blocked or unknown ones, and across each edge that leaves a
served vertex the one on the other side, unless it is blocked. -/
inductive Network.Served (n : Network) (seeds : IdSet) : FeatureId → Prop
  | seed {v} : v ∈ seeds → Served n seeds v
  | on {u edge e} : Served n seeds u → edge ∈ n.outgoing u → n.edge? edge = some e →
      n.isBlocked (e.opposite u) = false → Served n seeds (e.opposite u)

namespace Spread

variable {n : Network} {seeds : IdSet} {u v edge : FeatureId} {s : Spread}

theorem mem_reached_cross {f : FeatureId} :
    f ∈ (cross n u s edge).reached ↔ f ∈ s.reached ∨ f = edge ∧ n.containsEdge edge = true := by
  unfold cross Network.containsEdge IdMap.contains
  rw [← Network.edge?]
  cases n.edge? edge with
  | none => simp
  | some e => simp [or_comm]

theorem mem_queue_cross :
    v ∈ (cross n u s edge).queue ↔ v ∈ s.queue ∨
      ∃ e, n.edge? edge = some e ∧ e.opposite u = v ∧ v ∉ s.visited ∧ n.isBlocked v = false := by
  unfold cross
  cases n.edge? edge with
  | none => simp
  | some e =>
    dsimp only
    split
    · next fresh =>
      rw [List.mem_append, List.mem_singleton]
      refine or_congr_right ⟨?_, ?_⟩
      · rintro rfl
        exact ⟨e, rfl, rfl, fresh⟩
      · rintro ⟨f, same, across, _⟩
        cases same
        exact across.symm
    · next stale =>
      refine (or_iff_left ?_).symm
      rintro ⟨f, same, rfl, fresh⟩
      cases same
      exact stale fresh

/-- A visit reaches the edges listed at the vertex, -/
theorem mem_reached_visit {f : FeatureId} :
    f ∈ (visit n s u).reached ↔
      f ∈ s.reached ∨ f ∈ n.outgoing u ∧ n.containsEdge f = true := by
  suffices general : ∀ (edges : List FeatureId) (s : Spread), f ∈ (edges.foldl (cross n u) s).reached ↔
      f ∈ s.reached ∨ f ∈ edges ∧ n.containsEdge f = true from general (n.outgoing u) _
  intro edges
  induction edges with
  | nil => simp
  | cons edge rest ih =>
    intro s
    rw [List.foldl_cons, ih, mem_reached_cross, List.mem_cons]
    grind

/-- and queues the vertices on their other sides that are neither visited nor blocked. -/
theorem mem_queue_visit :
    v ∈ (visit n s u).queue ↔ v ∈ s.queue ∨
      ∃ edge ∈ n.outgoing u, ∃ e, n.edge? edge = some e ∧ e.opposite u = v ∧
        v ∉ s.visited.insert u ∧ n.isBlocked v = false := by
  suffices general : ∀ (edges : List FeatureId) (s : Spread), v ∈ (edges.foldl (cross n u) s).queue ↔ v ∈ s.queue ∨
      ∃ edge ∈ edges, ∃ e, n.edge? edge = some e ∧ e.opposite u = v ∧ v ∉ s.visited ∧
        n.isBlocked v = false from general (n.outgoing u) _
  intro edges
  induction edges with
  | nil => simp
  | cons edge rest ih =>
    intro s
    have visited : (cross n u s edge).visited = s.visited := (foldl_cross_bounds n u [edge] s).1
    rw [List.foldl_cons, ih, mem_queue_cross, visited]
    simp only [List.mem_cons, exists_eq_or_imp, or_assoc]

theorem visited_visit : (visit n s u).visited = s.visited.insert u := (foldl_cross_bounds n u _ _).1

/-- What holds of a spread whenever a vertex is taken off its queue: nothing is visited or queued that is not
served, and what the visited vertices lead to is reached, or visited or queued. -/
structure Sound (n : Network) (seeds : IdSet) (s : Spread) : Prop where
  served {v : FeatureId} : v ∈ s.visited ∨ v ∈ s.queue → n.Served seeds v
  seeded {v : FeatureId} : v ∈ seeds → v ∈ s.visited ∨ v ∈ s.queue
  reached {edge : FeatureId} : edge ∈ s.reached ↔
    ∃ u ∈ s.visited, edge ∈ n.outgoing u ∧ n.containsEdge edge = true
  closed {u edge : FeatureId} {e : Edge} : u ∈ s.visited → edge ∈ n.outgoing u → n.edge? edge = some e →
    n.isBlocked (e.opposite u) = false → e.opposite u ∈ s.visited ∨ e.opposite u ∈ s.queue

theorem sound_start (n : Network) (seeds : IdSet) :
    Sound n seeds { reached := .empty, visited := .empty, queue := seeds.toList } where
  served waiting := .seed (IdSet.mem_toList.mp (waiting.resolve_left (IdSet.not_mem_empty _)))
  seeded member := .inr (IdSet.mem_toList.mpr member)
  reached := by simp
  closed visited := absurd visited (IdSet.not_mem_empty _)

/-- A vertex in the queue that has been visited since may be dropped. -/
theorem Sound.drop {queue : List FeatureId} (sound : s.Sound n seeds) (taken : s.queue = u :: queue)
    (seen : u ∈ s.visited) : Sound n seeds { s with queue } := by
  have kept {v : FeatureId} : v ∈ s.visited ∨ v ∈ s.queue ↔ v ∈ s.visited ∨ v ∈ queue := by
    rw [taken, List.mem_cons]
    grind
  exact {
    served := fun waiting => sound.served (kept.mpr waiting)
    seeded := fun member => kept.mp (sound.seeded member)
    reached := sound.reached
    closed := fun visited listed found free => kept.mp (sound.closed visited listed found free) }

theorem Sound.visit {queue : List FeatureId} (sound : s.Sound n seeds) (taken : s.queue = u :: queue) :
    (Spread.visit n { s with queue } u).Sound n seeds := by
  have first : n.Served seeds u := sound.served (.inr (taken ▸ List.mem_cons_self ..))
  have kept {v : FeatureId} (before : v ∈ s.visited ∨ v ∈ s.queue) :
      v ∈ (Spread.visit n { s with queue } u).visited ∨ v ∈ (Spread.visit n { s with queue } u).queue := by
    rw [visited_visit, IdSet.mem_insert, mem_queue_visit]
    rw [taken, List.mem_cons] at before
    grind
  refine ⟨fun {v} waiting => ?_, fun member => kept (sound.seeded member), fun {edge} => ?_, ?_⟩
  · rw [visited_visit, IdSet.mem_insert, mem_queue_visit] at waiting
    rcases waiting with (rfl | old) | old | ⟨edge, listed, e, found, rfl, _, free⟩
    · exact first
    · exact sound.served (.inl old)
    · exact sound.served (.inr (taken ▸ List.mem_cons_of_mem _ old))
    · exact first.on listed found free
  · rw [mem_reached_visit, sound.reached, visited_visit]
    simp only [IdSet.mem_insert, exists_eq_or_imp]
    exact or_comm
  · intro w edge e visited listed found free
    rw [visited_visit, IdSet.mem_insert] at visited
    rcases visited with rfl | old
    · rw [visited_visit, mem_queue_visit]
      by_cases fresh : e.opposite w ∈ s.visited.insert w
      · exact .inl fresh
      · exact .inr (.inr ⟨edge, listed, e, found, rfl, fresh, free⟩)
    · exact kept (sound.closed old listed found free)

/-- With an empty queue every served vertex has been visited. -/
theorem Sound.visited_of_served (sound : s.Sound n seeds) (done : s.queue = []) (served : n.Served seeds v) :
    v ∈ s.visited := by
  have here {v : FeatureId} (either : v ∈ s.visited ∨ v ∈ s.queue) : v ∈ s.visited :=
    either.resolve_right (done ▸ List.not_mem_nil)
  induction served with
  | seed member => exact here (sound.seeded member)
  | on _ listed found free ih => exact here (sound.closed ih listed found free)

theorem Sound.mem_run (sound : s.Sound n seeds) :
    edge ∈ run n s ↔ ∃ u, n.Served seeds u ∧ edge ∈ n.outgoing u ∧ n.containsEdge edge = true := by
  fun_induction run n s with
  | case1 s done =>
    rw [sound.reached]
    exact exists_congr fun u => and_congr_left' ⟨fun visited => sound.served (.inl visited),
      sound.visited_of_served done⟩
  | case2 s u queue taken seen ih => exact ih (sound.drop taken seen)
  | case3 s u queue taken fresh ih => exact ih (sound.visit taken)

end Spread

/-- The edges reached are exactly those that leave a served vertex. -/
theorem Network.mem_reach_iff {n : Network} {seeds : IdSet} {edge : FeatureId} :
    edge ∈ n.reach seeds ↔
      ∃ u, n.Served seeds u ∧ edge ∈ n.outgoing u ∧ n.containsEdge edge = true :=
  (Spread.sound_start n seeds).mem_run

end FeatureNet
