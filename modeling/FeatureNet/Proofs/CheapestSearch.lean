import FeatureNet.Proofs.FrontierOrder
import FeatureNet.Proofs.Walks

namespace FeatureNet

open Binary64 Network

namespace PathTree

theorem distance?_reach (t : PathTree) (v edge : FeatureId) (d : Binary64) (w : FeatureId) :
    (t.reach v edge d).distance? w = if w = v then some d else t.distance? w := IdMap.get?_insert ..

theorem distance?_reach_self (t : PathTree) (v edge : FeatureId) (d : Binary64) :
    (t.reach v edge d).distance? v = some d := by rw [distance?_reach, if_pos rfl]

theorem distance?_reach_of_ne (t : PathTree) (edge : FeatureId) (d : Binary64) {v w : FeatureId}
    (different : w ≠ v) : (t.reach v edge d).distance? w = t.distance? w := by
  rw [distance?_reach, if_neg different]

theorem distance?_reach_cases {t : PathTree} {v edge w : FeatureId} {offer d : Binary64}
    (atW : (t.reach v edge offer).distance? w = some d) :
    w = v ∧ d = offer ∨ w ≠ v ∧ t.distance? w = some d := by
  rw [distance?_reach] at atW
  by_cases same : w = v
  · rw [if_pos same] at atW
    exact .inl ⟨same, (Option.some.inj atW).symm⟩
  · rw [if_neg same] at atW
    exact .inr ⟨same, atW⟩

theorem predecessor?_reach (t : PathTree) (v edge : FeatureId) (d : Binary64) (w : FeatureId) :
    (t.reach v edge d).predecessor? w = if w = v then some (some edge) else t.predecessor? w :=
  IdMap.get?_insert ..

theorem contains_eq (t : PathTree) (v : FeatureId) : t.contains v = (t.predecessor? v).isSome := rfl

/-- The last step to a vertex: over a listed edge from a vertex visited before. -/
structure Parent (t : PathTree) (n : Network) (order : List FeatureId) (v : FeatureId) (d : Binary64)
    (u edge : FeatureId) (e : Edge) (du : Binary64) : Prop where
  predecessor : t.predecessor? v = some (some edge)
  listed : edge ∈ n.outgoing u
  found : n.edge? edge = some e
  across : e.opposite u = v
  free : n.isBlocked v = false
  distance : t.distance? u = some du
  sum : d = du + e.cost
  visited : u ∈ order
  earlier : v ∈ order → order.idxOf u < order.idxOf v

variable {t : PathTree} {n : Network} {order : List FeatureId} {v u edge : FeatureId} {e : Edge}
  {d du : Binary64}

/-- Reaching some other vertex, not visited yet, leaves a last step as it is. -/
theorem Parent.reach (step : t.Parent n order v d u edge e du) {w : FeatureId} (fresh : w ∉ order)
    (different : v ≠ w) (edge' : FeatureId) (offer : Binary64) :
    (t.reach w edge' offer).Parent n order v d u edge e du where
  predecessor := by
    rw [predecessor?_reach, if_neg different]
    exact step.predecessor
  listed := step.listed
  found := step.found
  across := step.across
  free := step.free
  distance := by
    have other : u ≠ w := fun same => fresh (same ▸ step.visited)
    rw [distance?_reach_of_ne t edge' offer other]
    exact step.distance
  sum := step.sum
  visited := step.visited
  earlier := step.earlier

/-- Visiting one more vertex leaves a last step as it is, the visit being the latest. -/
theorem Parent.visit (step : t.Parent n order v d u edge e du) {w : FeatureId} (fresh : w ∉ order) :
    t.Parent n (order ++ [w]) v d u edge e du where
  predecessor := step.predecessor
  listed := step.listed
  found := step.found
  across := step.across
  free := step.free
  distance := step.distance
  sum := step.sum
  visited := List.mem_append_left _ step.visited
  earlier := by
    intro member
    have place := List.idxOf_lt_length_of_mem step.visited
    rcases List.mem_append.mp member with before | now
    · rw [List.idxOf_append_of_mem step.visited, List.idxOf_append_of_mem before]
      exact step.earlier before
    · rw [List.mem_singleton.mp now, List.idxOf_append_of_mem step.visited,
        List.idxOf_append_of_notMem fresh]
      omega

end PathTree

namespace Search

/-- What holds of a search from a root whenever the vertices of `order` have been visited, in that order.
An entry of the frontier may be stale, but then its vertex is known to be no farther away. Costs are
rounded at each step, so that nothing but the order of sums is used of them. -/
structure Sound (n : Network) (root : FeatureId) (order : List FeatureId) (s : Search) : Prop where
  root_eq : s.tree.root = some root
  nodup : order.Nodup
  visited {v} : v ∈ s.visited ↔ v ∈ order
  rooted : root ∈ order
  start : s.tree.distance? root = some .zero
  contains (v) : s.tree.contains v = (s.tree.distance? v).isSome
  reached {v} : v ∈ order → ∃ d, s.tree.distance? v = some d
  walked {v d} : s.tree.distance? v = some d →
    d.magnitude < infiniteMagnitude ∧ d.negative = false ∧ ∃ steps, n.Walk root steps v d
  parent {v d} : s.tree.distance? v = some d → v ≠ root →
    ∃ u edge e du, s.tree.Parent n order v d u edge e du
  pending {v d} : s.tree.distance? v = some d → v ∉ order → ∃ number, (d, number, v) ∈ s.frontier.entries
  stale {c number v} : (c, number, v) ∈ s.frontier.entries →
    isCost c ∧ c.negative = false ∧ ∃ d, s.tree.distance? v = some d ∧ d.magnitude ≤ c.magnitude
  below {u d} : u ∈ order → s.tree.distance? u = some d →
    ∀ e ∈ s.frontier.entries, d.magnitude ≤ e.1.magnitude
  ordered : s.frontier.Ordered

variable {n : Network} {root u : FeatureId} {order : List FeatureId} {s s' : Search} {distance : Binary64}

theorem Sound.isCost_distance (sound : s.Sound n root order) {v : FeatureId} {d : Binary64}
    (atV : s.tree.distance? v = some d) : isCost d := by
  obtain ⟨finite, positive, _⟩ := sound.walked atV
  exact isCost_iff.mpr ⟨Nat.le_of_lt finite, by simp [positive]⟩

/-- An offer that is taken is finite and less than the distance known. -/
theorem Sound.offer_less (sound : s.Sound n root order) {v : FeatureId} {offer : Binary64}
    (cost : isCost offer) (less : offer < s.known v) :
    offer.magnitude < infiniteMagnitude ∧
      ∀ d, s.tree.distance? v = some d → offer.magnitude < d.magnitude := by
  unfold known at less
  cases atV : s.tree.distance? v with
  | none =>
    rw [atV, Option.getD_none, lt_iff_magnitude cost isCost_infinity, magnitude_infinity] at less
    exact ⟨less, by simp⟩
  | some d =>
    rw [atV, Option.getD_some, lt_iff_magnitude cost (sound.isCost_distance atV)] at less
    refine ⟨Nat.lt_trans less (sound.walked atV).1, fun d' same => ?_⟩
    rwa [← Option.some.inj same]

/-- Reaching an unvisited vertex over an edge of the vertex visited last. -/
theorem Sound.reach (formed : n.WellFormed) (sound : s.Sound n root order) (atU : u ∈ order)
    (known : s.tree.distance? u = some distance)
    (latest : ∀ w ∈ order, ∀ d, s.tree.distance? w = some d → d.magnitude ≤ distance.magnitude)
    {edge : FeatureId} {e : Edge} (listed : edge ∈ n.outgoing u) (found : n.edge? edge = some e)
    (fresh : e.opposite u ∉ order) (less : distance + e.cost < s.known (e.opposite u))
    (free : n.isBlocked (e.opposite u) = false) :
    Sound n root order { s with
      tree := s.tree.reach (e.opposite u) edge (distance + e.cost)
      frontier := s.frontier.push (distance + e.cost) (e.opposite u) } := by
  have costD := sound.isCost_distance known
  have costE := formed.cost found
  have cost := isCost_add costD costE
  obtain ⟨finite, closer⟩ := sound.offer_less cost less
  have positive : (distance + e.cost).negative = false := by
    rw [(add_parts costD costE).2, (sound.walked known).2.1, Bool.false_and]
  have farther : distance.magnitude ≤ (distance + e.cost).magnitude := magnitude_le_add costD costE
  generalize offerEq : distance + e.cost = offer at *
  generalize vEq : e.opposite u = v at *
  have kept {w : FeatureId} (member : w ∈ order) :
      (s.tree.reach v edge offer).distance? w = s.tree.distance? w :=
    s.tree.distance?_reach_of_ne edge offer fun same => fresh (same ▸ member)
  refine ⟨sound.root_eq, sound.nodup, sound.visited, sound.rooted, ?_, ?_, ?_, ?_, ?_, ?_, ?_, ?_,
    sound.ordered.push offer v⟩
  · exact (kept sound.rooted).trans sound.start
  · intro w
    have old := sound.contains w
    rw [PathTree.contains_eq] at old ⊢
    rw [PathTree.predecessor?_reach, PathTree.distance?_reach]
    split
    · rfl
    · exact old
  · intro w member
    obtain ⟨d, atW⟩ := sound.reached member
    exact ⟨d, (kept member).trans atW⟩
  · intro w d atW
    rcases PathTree.distance?_reach_cases atW with ⟨rfl, rfl⟩ | ⟨_, old⟩
    · obtain ⟨_, _, steps, walk⟩ := sound.walked known
      have onward := walk.on listed found (vEq ▸ free)
      rw [offerEq, vEq] at onward
      exact ⟨finite, positive, _, onward⟩
    · exact sound.walked old
  · intro w d atW notRoot
    rcases PathTree.distance?_reach_cases atW with ⟨rfl, rfl⟩ | ⟨different, old⟩
    · exact ⟨u, edge, e, distance, by rw [PathTree.predecessor?_reach, if_pos rfl], listed, found, vEq,
        free, (kept atU).trans known, offerEq.symm, atU, fun member => absurd member fresh⟩
    · obtain ⟨u', edge', e', du, step⟩ := sound.parent old notRoot
      exact ⟨u', edge', e', du, step.reach fresh different edge offer⟩
  · intro w d atW unvisited
    rcases PathTree.distance?_reach_cases atW with ⟨rfl, rfl⟩ | ⟨_, old⟩
    · exact ⟨_, sound.ordered.mem_push.mpr (.inl rfl)⟩
    · obtain ⟨number, entry⟩ := sound.pending old unvisited
      exact ⟨number, sound.ordered.mem_push.mpr (.inr entry)⟩
  · intro c number w entry
    rcases Frontier.eq_or_mem_of_mem_push entry with new | old
    · cases new
      exact ⟨cost, positive, offer, s.tree.distance?_reach_self .., Nat.le_refl _⟩
    · obtain ⟨costC, positiveC, d, atW, le⟩ := sound.stale old
      refine ⟨costC, positiveC, ?_⟩
      by_cases same : w = v
      · subst same
        have less := closer d atW
        exact ⟨offer, s.tree.distance?_reach_self .., by omega⟩
      · exact ⟨d, (s.tree.distance?_reach_of_ne edge offer same).trans atW, le⟩
  · intro w d member atW entry isEntry
    have old := (kept member).symm.trans atW
    rcases Frontier.eq_or_mem_of_mem_push isEntry with new | before
    · rw [new]
      exact Nat.le_trans (latest w member d old) farther
    · exact sound.below member old entry before

/-- A later state of a search: visited vertices keep their distances, and no other gets farther. -/
def Narrows (order : List FeatureId) (s s' : Search) : Prop :=
  (∀ w ∈ order, s'.tree.distance? w = s.tree.distance? w) ∧
    ∀ w d, s.tree.distance? w = some d → ∃ d', s'.tree.distance? w = some d' ∧ d'.magnitude ≤ d.magnitude

theorem narrows_refl (order : List FeatureId) (s : Search) : Narrows order s s :=
  ⟨fun _ _ => rfl, fun _ d atW => ⟨d, atW, Nat.le_refl _⟩⟩

theorem Narrows.trans {a b c : Search} (ab : Narrows order a b) (bc : Narrows order b c) :
    Narrows order a c := by
  refine ⟨fun w member => (bc.1 w member).trans (ab.1 w member), fun w d atW => ?_⟩
  obtain ⟨d', atW', le⟩ := ab.2 w d atW
  obtain ⟨d'', atW'', le'⟩ := bc.2 w d' atW'
  exact ⟨d'', atW'', Nat.le_trans le' le⟩

/-- No edge in a list offers its other end, from the distance of a vertex, less than what is known. -/
def Settled (n : Network) (t : PathTree) (u : FeatureId) (edges : List FeatureId) : Prop :=
  ∀ edge ∈ edges, ∀ e, n.edge? edge = some e → n.isBlocked (e.opposite u) = false →
    ∀ d, t.distance? u = some d → (d + e.cost).magnitude < infiniteMagnitude →
      ∃ d', t.distance? (e.opposite u) = some d' ∧ d'.magnitude ≤ (d + e.cost).magnitude

theorem Settled.mono {edges : List FeatureId} (settled : Settled n s.tree u edges) (atU : u ∈ order)
    (narrows : Narrows order s s') : Settled n s'.tree u edges := by
  intro edge member e found free d known finite
  rw [narrows.1 u atU] at known
  obtain ⟨d', atV, le⟩ := settled edge member e found free d known finite
  obtain ⟨d'', atV', le'⟩ := narrows.2 _ _ atV
  exact ⟨d'', atV', Nat.le_trans le' le⟩

/-- Reaching an unvisited vertex nearer than it was known. -/
theorem narrows_reach (s : Search) {v : FeatureId} (fresh : v ∉ order) (edge : FeatureId)
    {offer : Binary64} (closer : ∀ d, s.tree.distance? v = some d → offer.magnitude < d.magnitude)
    (frontier : Frontier FeatureId) :
    Narrows order s { s with tree := s.tree.reach v edge offer, frontier } := by
  constructor
  · intro w member
    exact s.tree.distance?_reach_of_ne edge offer fun same => fresh (same ▸ member)
  · intro w d atW
    by_cases same : w = v
    · subst same
      exact ⟨offer, s.tree.distance?_reach_self .., Nat.le_of_lt (closer d atW)⟩
    · exact ⟨d, (s.tree.distance?_reach_of_ne edge offer same).trans atW, Nat.le_refl _⟩

/-- An offer from the vertex visited last that is not less than what is known of the other end. -/
theorem Sound.refuse (formed : n.WellFormed) (sound : s.Sound n root order)
    (known : s.tree.distance? u = some distance)
    (latest : ∀ w ∈ order, ∀ d, s.tree.distance? w = some d → d.magnitude ≤ distance.magnitude)
    {edge : FeatureId} {e : Edge} (found : n.edge? edge = some e)
    (finite : (distance + e.cost).magnitude < infiniteMagnitude)
    (refused : e.opposite u ∈ order ∨ ¬distance + e.cost < s.known (e.opposite u)) :
    ∃ d, s.tree.distance? (e.opposite u) = some d ∧ d.magnitude ≤ (distance + e.cost).magnitude := by
  have costD := sound.isCost_distance known
  have costE := formed.cost found
  have cost := isCost_add costD costE
  rcases refused with member | notLess
  · -- A visited vertex was taken off the frontier before this one, so it is no farther.
    obtain ⟨d, atV⟩ := sound.reached member
    exact ⟨d, atV, Nat.le_trans (latest _ member d atV) (magnitude_le_add costD costE)⟩
  · unfold Search.known at notLess
    cases atV : s.tree.distance? (e.opposite u) with
    | none =>
      rw [atV, Option.getD_none, lt_iff_magnitude cost isCost_infinity, magnitude_infinity] at notLess
      exact absurd finite notLess
    | some d =>
      rw [atV, Option.getD_some, lt_iff_magnitude cost (sound.isCost_distance atV)] at notLess
      exact ⟨d, rfl, Nat.le_of_not_lt notLess⟩

/-- One relaxation from the vertex visited last: the search stays sound, and the edge is settled. -/
theorem Sound.relax (formed : n.WellFormed) (sound : s.Sound n root order) (atU : u ∈ order)
    (known : s.tree.distance? u = some distance)
    (latest : ∀ w ∈ order, ∀ d, s.tree.distance? w = some d → d.magnitude ≤ distance.magnitude)
    {edge : FeatureId} (listed : edge ∈ n.outgoing u) :
    (Search.relax n u distance s edge).Sound n root order ∧
      Narrows order s (Search.relax n u distance s edge) ∧
        Settled n (Search.relax n u distance s edge).tree u [edge] := by
  unfold Search.relax
  split
  · next missing =>
    refine ⟨sound, narrows_refl _ _, fun f member e found => ?_⟩
    rw [List.mem_singleton.mp member, missing] at found
    cases found
  · next e found =>
    have cost := isCost_add (sound.isCost_distance known) (formed.cost found)
    dsimp only
    split
    · next taken =>
      obtain ⟨fresh, less, free⟩ := taken
      rw [sound.visited] at fresh
      have closer := (sound.offer_less cost less).2
      refine ⟨sound.reach formed atU known latest listed found fresh less free,
        s.narrows_reach fresh edge closer _, fun f member e' found' _ d atU' _ => ?_⟩
      rw [List.mem_singleton.mp member, found] at found'
      cases found'
      have other : u ≠ e.opposite u := fun same => fresh (same ▸ atU)
      dsimp only at atU' ⊢
      rw [PathTree.distance?_reach_of_ne _ _ _ other, known] at atU'
      cases atU'
      exact ⟨_, s.tree.distance?_reach_self .., Nat.le_refl _⟩
    · next refused =>
      refine ⟨sound, narrows_refl _ _, fun f member e' found' free d atU' finite => ?_⟩
      rw [List.mem_singleton.mp member, found] at found'
      cases found'
      rw [known] at atU'
      cases atU'
      apply sound.refuse formed known latest found finite
      by_cases visited : e.opposite u ∈ s.visited
      · exact .inl (sound.visited.mp visited)
      · exact .inr fun less => refused ⟨visited, less, free⟩

theorem Sound.foldl_relax (formed : n.WellFormed) (sound : s.Sound n root order) (atU : u ∈ order)
    (known : s.tree.distance? u = some distance)
    (latest : ∀ w ∈ order, ∀ d, s.tree.distance? w = some d → d.magnitude ≤ distance.magnitude)
    {edges : List FeatureId} (listed : ∀ edge ∈ edges, edge ∈ n.outgoing u) :
    (edges.foldl (Search.relax n u distance) s).Sound n root order ∧
      Narrows order s (edges.foldl (Search.relax n u distance) s) ∧
        Settled n (edges.foldl (Search.relax n u distance) s).tree u edges := by
  induction edges generalizing s with
  | nil => exact ⟨sound, narrows_refl _ _, fun edge member => absurd member List.not_mem_nil⟩
  | cons edge rest ih =>
    obtain ⟨sound', narrows, settled⟩ :=
      sound.relax formed atU known latest (listed edge (List.mem_cons_self ..))
    have known' := (narrows.1 u atU).trans known
    have latest' : ∀ w ∈ order, ∀ d, (Search.relax n u distance s edge).tree.distance? w = some d →
        d.magnitude ≤ distance.magnitude :=
      fun w member d atW => latest w member d ((narrows.1 w member).symm.trans atW)
    obtain ⟨sound'', narrows', settled'⟩ :=
      ih sound' known' latest' fun edge member => listed edge (List.mem_cons_of_mem _ member)
    refine ⟨sound'', narrows.trans narrows', fun f member => ?_⟩
    rcases List.mem_cons.mp member with same | later
    · exact same ▸ settled.mono atU narrows' edge (List.mem_singleton_self _)
    · exact settled' f later

/-- Taking the entry of a vertex not visited before: its distance is the entry's, and none of the vertices
visited is farther. -/
theorem Sound.take (sound : s.Sound n root order) {frontier : Frontier FeatureId}
    (taken : s.frontier.popMin? = some ((distance, u), frontier)) (fresh : u ∉ order) :
    Sound n root (order ++ [u]) { s with frontier, visited := s.visited.insert u } ∧
      s.tree.distance? u = some distance ∧
        ∀ w ∈ order ++ [u], ∀ d, s.tree.distance? w = some d → d.magnitude ≤ distance.magnitude := by
  obtain ⟨ordered, number, entries, least⟩ := sound.ordered.popMin taken
  have first : (distance, number, u) ∈ s.frontier.entries := entries ▸ List.mem_cons_self ..
  have others {e : Binary64 × Nat × FeatureId} (member : e ∈ frontier.entries) : e ∈ s.frontier.entries :=
    entries ▸ List.mem_cons_of_mem _ member
  obtain ⟨costC, positiveC, d, atU, le⟩ := sound.stale first
  have same : d = distance := by
    obtain ⟨number', entry⟩ := sound.pending atU fresh
    rw [entries] at entry
    rcases List.mem_cons.mp entry with head | later
    · cases head
      rfl
    · have back := magnitude_le_of_rank_le costC (sound.isCost_distance atU) (least _ later)
      exact ext_parts ((sound.walked atU).2.1.trans positiveC.symm) (Nat.le_antisymm le back)
  subst same
  have latest : ∀ w ∈ order ++ [u], ∀ d', s.tree.distance? w = some d' → d'.magnitude ≤ d.magnitude := by
    intro w member d' atW
    rcases List.mem_append.mp member with before | now
    · exact sound.below before atW _ first
    · rw [List.mem_singleton.mp now, atU] at atW
      rw [Option.some.inj atW]
  refine ⟨⟨sound.root_eq, ?_, ?_, List.mem_append_left _ sound.rooted, sound.start, sound.contains, ?_,
    sound.walked, ?_, ?_, fun entry => sound.stale (others entry), ?_, ordered⟩, atU, latest⟩
  · rw [← List.concat_eq_append]
    exact sound.nodup.concat fresh
  · intro v
    rw [IdSet.mem_insert, sound.visited, List.mem_append, List.mem_singleton]
    exact or_comm
  · intro v member
    rcases List.mem_append.mp member with before | now
    · exact sound.reached before
    · exact ⟨d, List.mem_singleton.mp now ▸ atU⟩
  · intro v d' atV notRoot
    obtain ⟨w, edge, e, dw, step⟩ := sound.parent atV notRoot
    exact ⟨w, edge, e, dw, step.visit fresh⟩
  · intro v d' atV unvisited
    rw [List.mem_append, List.mem_singleton, not_or] at unvisited
    obtain ⟨number', entry⟩ := sound.pending atV unvisited.1
    rw [entries] at entry
    rcases List.mem_cons.mp entry with head | later
    · cases head
      exact absurd rfl unvisited.2
    · exact ⟨number', later⟩
  · intro w d' member atW entry isEntry
    have back := magnitude_le_of_rank_le costC (sound.stale (others isEntry)).1 (least entry isEntry)
    exact Nat.le_trans (latest w member d' atW) back

/-- Dropping a stale entry. -/
theorem Sound.drop (sound : s.Sound n root order) {frontier : Frontier FeatureId}
    (taken : s.frontier.popMin? = some ((distance, u), frontier)) (stale : u ∈ order) :
    Sound n root order { s with frontier } := by
  obtain ⟨ordered, number, entries, _⟩ := sound.ordered.popMin taken
  have others {e : Binary64 × Nat × FeatureId} (member : e ∈ frontier.entries) : e ∈ s.frontier.entries :=
    entries ▸ List.mem_cons_of_mem _ member
  refine ⟨sound.root_eq, sound.nodup, sound.visited, sound.rooted, sound.start, sound.contains,
    sound.reached, sound.walked, sound.parent, fun {v d} atV unvisited => ?_,
    fun entry => sound.stale (others entry),
    fun member atW entry isEntry => sound.below member atW entry (others isEntry), ordered⟩
  obtain ⟨number', entry⟩ := sound.pending atV unvisited
  rw [entries] at entry
  rcases List.mem_cons.mp entry with head | later
  · cases head
    exact absurd stale unvisited
  · exact ⟨number', later⟩

end Search

end FeatureNet
