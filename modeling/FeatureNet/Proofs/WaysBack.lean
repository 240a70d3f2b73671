import FeatureNet.Proofs.BuiltNetworks
import Mathlib.Data.List.Chain
import Mathlib.Data.List.Nodup
import Mathlib.Logic.Relation

namespace FeatureNet

namespace Network

variable {n : Network} {t : PathTree} {root u v : FeatureId} {back back' before after : List Step} {s : Step}

/-- A tree leads from one vertex to the next one back: to the other end of the edge recorded for it, if the
network has that edge. -/
def LeadsBack (n : Network) (t : PathTree) (v u : FeatureId) : Prop :=
  ∃ edge e, t.predecessor? v = some (some edge) ∧ n.edge? edge = some e ∧ e.opposite v = u

/-- The way back from a vertex to the root, with the step to the vertex itself at its head. It ends
where it first comes to the root. There is one at most, so none passes a vertex twice or has more steps
than the tree has vertices. -/
inductive WayBack (n : Network) (t : PathTree) (root : FeatureId) : FeatureId → List Step → Prop
  | arrived : WayBack n t root root []
  | step {v edge e back} : v ≠ root → t.predecessor? v = some (some edge) → n.edge? edge = some e →
      WayBack n t root (e.opposite v) back → WayBack n t root v (⟨v, some edge⟩ :: back)

theorem stepsBack_root (n : Network) (t : PathTree) (root : FeatureId) (left : Nat) :
    n.stepsBack t root left root = some [] := by
  cases left <;> simp [stepsBack]

/-- The steps found within a bound are a way back of no more steps. -/
theorem stepsBack_eq_some_iff {left : Nat} :
    n.stepsBack t root left v = some back ↔ n.WayBack t root v back ∧ back.length ≤ left := by
  induction left generalizing v back with
  | zero =>
    constructor
    · intro found
      unfold stepsBack at found
      split at found
      · next atRoot =>
        cases found
        exact ⟨atRoot ▸ .arrived, Nat.le_refl _⟩
      · cases found
    · rintro ⟨way, bound⟩
      cases way with
      | arrived => exact stepsBack_root ..
      | step => exact absurd bound (Nat.not_succ_le_zero _)
  | succ left ih =>
    constructor
    · intro found
      unfold stepsBack at found
      split at found
      · next atRoot =>
        cases found
        exact ⟨atRoot ▸ .arrived, Nat.zero_le _⟩
      · next notRoot =>
        obtain ⟨edge?, reached, found⟩ := Option.bind_eq_some_iff.mp found
        obtain ⟨edge, isEdge, found⟩ := Option.bind_eq_some_iff.mp found
        obtain ⟨e, atEdge, found⟩ := Option.bind_eq_some_iff.mp found
        obtain ⟨earlier, rest, shape⟩ := Option.bind_eq_some_iff.mp found
        cases isEdge
        cases shape
        obtain ⟨way, bound⟩ := ih.mp rest
        exact ⟨way.step notRoot reached atEdge, Nat.succ_le_succ bound⟩
    · rintro ⟨way, bound⟩
      cases way with
      | arrived => exact stepsBack_root ..
      | step notRoot reached atEdge way =>
        have rest := ih.mpr ⟨way, Nat.le_of_succ_le_succ bound⟩
        rw [stepsBack, if_neg notRoot]
        simp [reached, atEdge, rest]

theorem WayBack.unique (way : n.WayBack t root v back) (way' : n.WayBack t root v back') : back = back' := by
  induction way generalizing back' with
  | arrived =>
    cases way' with
    | arrived => rfl
    | step notRoot => exact absurd rfl notRoot
  | step notRoot reached atEdge _ ih =>
    cases way' with
    | arrived => exact absurd rfl notRoot
    | step _ reached' atEdge' way' =>
      cases reached.symm.trans reached'
      cases atEdge.symm.trans atEdge'
      rw [ih way']

/-- From each of its steps on, a way back is the way back from there. -/
theorem WayBack.onward (way : n.WayBack t root v (before ++ s :: after)) :
    n.WayBack t root s.vertex (s :: after) := by
  induction before generalizing v with
  | nil =>
    cases way with
    | step notRoot reached atEdge way => exact way.step notRoot reached atEdge
  | cons _ _ ih =>
    cases way with
    | step _ _ _ way => exact ih way

/-- What is recorded for the vertex of a step, which is not the root, is its edge. -/
theorem WayBack.recorded (way : n.WayBack t root v back) (member : s ∈ back) :
    s.vertex ≠ root ∧ ∃ edge e, s.edge = some edge ∧ t.predecessor? s.vertex = some (some edge) ∧
      n.edge? edge = some e := by
  obtain ⟨w, edge?⟩ := s
  obtain ⟨before, after, rfl⟩ := List.append_of_mem member
  cases way.onward with
  | step notRoot reached atEdge => exact ⟨notRoot, _, _, rfl, reached, atEdge⟩

/-- No vertex is passed twice, as its way back would be longer than itself. -/
theorem WayBack.nodup (way : n.WayBack t root v back) : (root :: back.map (·.vertex)).Nodup := by
  induction way with
  | arrived => exact List.nodup_singleton root
  | @step v edge e back notRoot reached atEdge rest ih =>
    obtain ⟨rootless, nodup⟩ := List.nodup_cons.mp ih
    have fresh : v ∉ back.map (·.vertex) := by
      intro passed
      obtain ⟨s, member, same⟩ := List.mem_map.mp passed
      obtain ⟨before, after, rfl⟩ := List.append_of_mem member
      have again : n.WayBack t root v (s :: after) := same ▸ rest.onward
      have length := congrArg List.length ((rest.step notRoot reached atEdge).unique again)
      simp only [List.length_cons, List.length_append] at length
      omega
    rw [List.map_cons, List.nodup_cons, List.nodup_cons, List.mem_cons, not_or]
    exact ⟨⟨notRoot.symm, rootless⟩, fresh, nodup⟩

theorem contains_of_predecessor? {edge? : Option FeatureId} (reached : t.predecessor? v = some edge?) :
    t.contains v = true := Option.isSome_of_eq_some reached

theorem WayBack.length_le_size (way : n.WayBack t root v back) : back.length ≤ t.size := by
  have keys : back.map (·.vertex) ⊆ t.predecessors.keys := by
    intro w passed
    obtain ⟨s, member, rfl⟩ := List.mem_map.mp passed
    obtain ⟨_, _, _, _, reached, _⟩ := way.recorded member
    exact IdMap.contains_iff_mem_keys.mp (contains_of_predecessor? reached)
  have length := (List.nodup_cons.mp way.nodup).2.length_le_of_subset keys
  rwa [IdMap.keys, List.length_map, List.length_map] at length

/-- The bound by the size of the tree keeps no way out. -/
theorem stepsBack_size_iff : n.stepsBack t root t.size v = some back ↔ n.WayBack t root v back := by
  rw [stepsBack_eq_some_iff]
  exact and_iff_left_of_imp WayBack.length_le_size

/-- A way back is there exactly if going on back comes to the root at all, were it in a circle through it. -/
theorem exists_wayBack_iff :
    (∃ back, n.WayBack t root v back) ↔ Relation.ReflTransGen (n.LeadsBack t) v root := by
  constructor
  · rintro ⟨back, way⟩
    induction way with
    | arrived => exact .refl
    | step _ reached atEdge _ ih => exact .head ⟨_, _, reached, atEdge, rfl⟩ ih
  · intro leads
    induction leads using Relation.ReflTransGen.head_induction_on with
    | refl => exact ⟨[], .arrived⟩
    | @head v u first _ ih =>
      obtain ⟨edge, e, reached, atEdge, rfl⟩ := first
      obtain ⟨back, way⟩ := ih
      by_cases atRoot : v = root
      · exact ⟨[], atRoot ▸ .arrived⟩
      · exact ⟨_, way.step atRoot reached atEdge⟩

/-- The path of a tree to a vertex: empty, or the way back turned round. -/
theorem pathTo_cases (n : Network) (t : PathTree) (v : FeatureId) :
    (∃ root back, t.root = some root ∧ t.contains v = true ∧ n.WayBack t root v back ∧
      n.pathTo t v = ⟨⟨root, none⟩ :: back.reverse⟩) ∨
    n.pathTo t v = .empty ∧
      ∀ root back, t.root = some root → t.contains v = true → ¬n.WayBack t root v back := by
  unfold pathTo
  cases rooted : t.root with
  | none => exact .inr ⟨rfl, fun _ _ impossible => by cases impossible⟩
  | some root =>
    cases contained : t.contains v with
    | false => exact .inr ⟨rfl, fun _ _ _ impossible => by cases impossible⟩
    | true =>
      cases found : n.stepsBack t root t.size v with
      | some back => exact .inl ⟨root, back, rfl, rfl, stepsBack_size_iff.mp found, by simp [found]⟩
      | none =>
        refine .inr ⟨by simp [found], fun root' back same _ way => ?_⟩
        cases same
        rw [stepsBack_size_iff.mpr way] at found
        cases found

theorem WayBack.pathTo (way : n.WayBack t root v back) (rooted : t.root = some root)
    (contained : t.contains v = true) : n.pathTo t v = ⟨⟨root, none⟩ :: back.reverse⟩ := by
  rcases n.pathTo_cases t v with ⟨root', back', rooted', _, way', path⟩ | ⟨_, none⟩
  · cases rooted.symm.trans rooted'
    rw [path, way.unique way']
  · exact absurd way (none root back rooted contained)

theorem turned_eq (root : FeatureId) (back : List Step) :
    ⟨root, none⟩ :: back.reverse = (back ++ [(⟨root, none⟩ : Step)]).reverse := by simp

/-- The path to a vertex passed is the path up to it. -/
theorem WayBack.pathTo_passed (way : n.WayBack t root v back) (rooted : t.root = some root)
    (contained : t.contains root = true) (split : ⟨root, none⟩ :: back.reverse = before ++ s :: after) :
    n.pathTo t s.vertex = ⟨before ++ [s]⟩ := by
  cases before with
  | nil =>
    cases split
    exact WayBack.arrived.pathTo rooted contained
  | cons first before =>
    rw [List.cons_append, List.cons.injEq, List.reverse_eq_iff] at split
    obtain ⟨rfl, rfl⟩ := split
    rw [List.reverse_append, List.reverse_cons, List.append_assoc, List.singleton_append] at way
    obtain ⟨_, _, _, _, reached, _⟩ := way.onward.recorded (List.mem_cons_self ..)
    rw [way.onward.pathTo rooted (contains_of_predecessor? reached)]
    simp

/-- One round of following a tree back, on the vertex come to and the steps gone: the edge recorded for the vertex
is followed, unless the vertex is the root or the steps become more than the tree has vertices. -/
def Round (n : Network) (t : PathTree) (root : FeatureId) (now next : FeatureId × List Step) : Prop :=
  now.1 ≠ root ∧ ∃ edge e, t.predecessor? now.1 = some (some edge) ∧ n.edge? edge = some e ∧
    next = (e.opposite now.1, now.2 ++ [⟨now.1, some edge⟩]) ∧ next.2.length ≤ t.size

/-- The rounds come to an end, whatever is recorded: each adds a step, and there is room for so many only. -/
theorem wellFounded_round (n : Network) (t : PathTree) (root : FeatureId) :
    WellFounded fun next now => n.Round t root now next := by
  refine Subrelation.wf ?_ (measure fun now : FeatureId × List Step => t.size - now.2.length).wf
  rintro next now ⟨_, edge, e, _, _, rfl, bound⟩
  change t.size - (now.2 ++ _).length < t.size - now.2.length
  simp only [List.length_append, List.length_singleton] at bound ⊢
  omega

/-- Rounds that come to the root have gone the way back. -/
theorem wayBack_of_rounds {now last : FeatureId × List Step} (rounds : Relation.ReflTransGen (n.Round t root) now last)
    (arrived : last.1 = root) : ∃ back, n.WayBack t root now.1 back ∧ last.2 = now.2 ++ back := by
  induction rounds using Relation.ReflTransGen.head_induction_on with
  | refl => exact ⟨[], arrived ▸ .arrived, (List.append_nil _).symm⟩
  | head first _ ih =>
    obtain ⟨notRoot, edge, e, reached, atEdge, rfl, _⟩ := first
    obtain ⟨back, way, gone⟩ := ih
    exact ⟨_, way.step notRoot reached atEdge, by rw [gone, List.append_assoc, List.singleton_append]⟩

/-- A way back is gone by rounds, if there is room for its steps. -/
theorem WayBack.rounds (way : n.WayBack t root v back) {gone : List Step}
    (room : (gone ++ back).length ≤ t.size) :
    Relation.ReflTransGen (n.Round t root) (v, gone) (root, gone ++ back) := by
  induction way generalizing gone with
  | arrived => rw [List.append_nil]
  | @step v edge e back notRoot reached atEdge _ ih =>
    have split : gone ++ ⟨v, some edge⟩ :: back = (gone ++ [⟨v, some edge⟩]) ++ back := by simp
    rw [split] at room ⊢
    refine .head ⟨notRoot, edge, e, reached, atEdge, rfl, ?_⟩ (ih room)
    exact Nat.le_trans (List.prefix_append ..).length_le room

theorem rounds_iff_wayBack :
    Relation.ReflTransGen (n.Round t root) (v, []) (root, back) ↔ n.WayBack t root v back := by
  refine ⟨fun rounds => ?_, fun way => way.rounds way.length_le_size⟩
  obtain ⟨back', way, gone⟩ := wayBack_of_rounds rounds rfl
  rwa [show back = back' from gone]

theorem WayBack.end? (way : n.WayBack t root v back) : (⟨⟨root, none⟩ :: back.reverse⟩ : Path).end? = some v := by
  cases way with
  | arrived => rfl
  | step => simp [Path.end?, List.getLast?_cons]

theorem WayBack.nodup_vertices (way : n.WayBack t root v back) :
    (⟨⟨root, none⟩ :: back.reverse⟩ : Path).vertices.Nodup := by
  have nodup := way.nodup
  rw [List.nodup_cons] at nodup
  simpa [Path.vertices] using nodup

/-- Following any tree back ends, and the bound on its steps is exact. A path is found exactly if going on over
the recorded edges comes to the root; it is the way that the rounds go, from the root to the vertex asked for,
without repeats and with at most one step more than the tree has vertices. -/
theorem pathTo_exact (n : Network) (t : PathTree) (target : FeatureId) :
    (∀ root, WellFounded fun next now => n.Round t root now next) ∧
      ((n.pathTo t target).isEmpty = false ↔ ∃ root, t.root = some root ∧ t.contains target = true ∧
        Relation.ReflTransGen (n.LeadsBack t) target root) ∧
      (∀ root left back, n.stepsBack t root left target = some back →
        n.stepsBack t root t.size target = some back) ∧
      ((n.pathTo t target).isEmpty = false → ∃ root back, t.root = some root ∧
        Relation.ReflTransGen (n.Round t root) (target, []) (root, back) ∧
        n.pathTo t target = ⟨⟨root, none⟩ :: back.reverse⟩ ∧ (n.pathTo t target).end? = some target ∧
        (n.pathTo t target).vertices.Nodup ∧ (n.pathTo t target).length ≤ t.size + 1) := by
  refine ⟨n.wellFounded_round t, ?_, fun root left back found => ?_, fun found => ?_⟩
  · rcases n.pathTo_cases t target with ⟨root, back, rooted, contained, way, path⟩ | ⟨path, none⟩
    · rw [path]
      exact iff_of_true rfl ⟨root, rooted, contained, exists_wayBack_iff.mp ⟨back, way⟩⟩
    · rw [path]
      refine iff_of_false Bool.noConfusion ?_
      rintro ⟨root, rooted, contained, leads⟩
      obtain ⟨back, way⟩ := exists_wayBack_iff.mpr leads
      exact none root back rooted contained way
  · exact stepsBack_size_iff.mpr (stepsBack_eq_some_iff.mp found).1
  · rcases n.pathTo_cases t target with ⟨root, back, rooted, _, way, path⟩ | ⟨path, _⟩
    · rw [path]
      refine ⟨root, back, rooted, rounds_iff_wayBack.mpr way, rfl, way.end?, way.nodup_vertices, ?_⟩
      have length := way.length_le_size
      simpa [Path.length] using length
    · rw [path] at found
      cases found

/-- A step that takes the edge recorded for its vertex, from the other end of that edge. -/
def Follows (n : Network) (t : PathTree) (a b : Step) : Prop :=
  ∃ edge e, b.edge = some edge ∧ t.predecessor? b.vertex = some (some edge) ∧ n.edge? edge = some e ∧
    e.opposite b.vertex = a.vertex

end Network

/-- The ends of an edge, in either order. -/
def Edge.Joins (e : Edge) (u v : FeatureId) : Prop := e.source = u ∧ e.target = v ∨ e.source = v ∧ e.target = u

instance (e : Edge) (u v : FeatureId) : Decidable (e.Joins u v) := inferInstanceAs (Decidable (_ ∨ _))

/-- The vertex found on the other side of another is an end of the edge, but the other one need not be. -/
theorem Edge.joins_opposite_iff {e : Edge} {v : FeatureId} :
    e.Joins (e.opposite v) v ↔ e.source = v ∨ e.target = v := by
  unfold Joins opposite
  split
  · next atSource => simp [atSource]
  · next notSource => simp [Ne.symm notSource]

namespace Network

variable {n : Network} {t : PathTree} {root u v : FeatureId} {back back' before after : List Step} {s : Step}

/-- Every step of a path after the first takes an edge of the network from the vertex before it to its own. -/
def Joined (n : Network) (p : Path) : Prop :=
  p.steps.IsChain fun a b => ∃ edge e, b.edge = some edge ∧ n.edge? edge = some e ∧ e.Joins a.vertex b.vertex

theorem WayBack.head_vertex (way : n.WayBack t root v back) :
    ∀ a ∈ (back ++ [(⟨root, none⟩ : Step)]).head?, a.vertex = v := by
  cases way <;> simp

/-- On a way back each step takes the edge recorded for its vertex. -/
theorem WayBack.follows (way : n.WayBack t root v back) :
    (⟨root, none⟩ :: back.reverse).IsChain (n.Follows t) := by
  rw [turned_eq, List.isChain_reverse]
  induction way with
  | arrived => exact List.isChain_singleton _
  | step _ reached atEdge way ih =>
    rw [List.cons_append, List.isChain_cons]
    exact ⟨fun a first => ⟨_, _, rfl, reached, atEdge, (way.head_vertex a first).symm⟩, ih⟩

/-- A way back is joined exactly if the edges recorded for its vertices end there. -/
theorem WayBack.joined_iff (way : n.WayBack t root v back) :
    n.Joined ⟨⟨root, none⟩ :: back.reverse⟩ ↔ ∀ s ∈ back, ∀ edge e, t.predecessor? s.vertex = some (some edge) →
      n.edge? edge = some e → e.source = s.vertex ∨ e.target = s.vertex := by
  rw [Joined, turned_eq, List.isChain_reverse]
  induction way with
  | arrived => exact iff_of_true (List.isChain_singleton _) fun s member => absurd member List.not_mem_nil
  | @step v edge e back _ reached atEdge way ih =>
    rw [List.cons_append, List.isChain_cons, List.forall_mem_cons]
    refine and_congr ⟨fun joins edge' e' reached' atEdge' => ?_, fun ends a first => ?_⟩ ih
    · cases reached.symm.trans reached'
      cases atEdge.symm.trans atEdge'
      obtain ⟨a, first⟩ : ∃ a, a ∈ (back ++ [(⟨root, none⟩ : Step)]).head? := by cases back <;> simp
      obtain ⟨edge', e', isEdge, atEdge', joins⟩ := joins a first
      cases isEdge
      cases atEdge.symm.trans atEdge'
      rw [way.head_vertex a first] at joins
      exact Edge.joins_opposite_iff.mp joins
    · refine ⟨edge, e, rfl, atEdge, ?_⟩
      rw [way.head_vertex a first]
      exact Edge.joins_opposite_iff.mpr (ends edge e reached atEdge)

/-- A path takes recorded edges that the network has, each from its end on the other side of the vertex that it is
recorded for. It is joined exactly if these vertices are ends of their edges too: an edge that has another place in
the network by now is taken for a step to a vertex where it does not end. -/
theorem joined_pathTo_iff (n : Network) (t : PathTree) (target : FeatureId) :
    (n.pathTo t target).steps.IsChain (n.Follows t) ∧
      (n.Joined (n.pathTo t target) ↔ ∀ v ∈ (n.pathTo t target).vertices, t.root ≠ some v → ∀ edge e,
        t.predecessor? v = some (some edge) → n.edge? edge = some e → e.source = v ∨ e.target = v) := by
  rcases n.pathTo_cases t target with ⟨root, back, rooted, _, way, path⟩ | ⟨path, _⟩
  · rw [path, rooted]
    refine ⟨way.follows, way.joined_iff.trans ⟨fun ends v passed notRoot => ?_, fun ends s member => ?_⟩⟩
    · rcases List.mem_cons.mp passed with first | later
      · exact absurd (congrArg some first.symm) notRoot
      · obtain ⟨s, member, rfl⟩ := List.mem_map.mp later
        exact ends s (List.mem_reverse.mp member)
    · refine ends s.vertex (List.mem_map_of_mem (List.mem_cons_of_mem _ (List.mem_reverse.mpr member))) ?_
      exact fun same => (way.recorded member).1 (Option.some.inj same).symm
  · rw [path]
    exact ⟨.nil, iff_of_true .nil fun v passed => absurd passed List.not_mem_nil⟩

/-- A connection from the first vertex to the third one. -/
def straight : Network := (ofConnections [.directed 1 3 12 (.ofInt 1)]).1

/-- The same connection, which now ends at a second vertex, and another from there on. -/
def rewired : Network := (ofConnections [.directed 1 2 12 (.ofInt 1), .directed 2 3 23 (.ofInt 1)]).1

/-- A tree found before the connection was moved still gives a path over it alone, and that is not joined. -/
theorem pathTo_not_joined :
    rewired.Built ∧ rewired.pathTo (straight.cheapestTree 1) 3 = ⟨[⟨1, none⟩, ⟨3, some 12⟩]⟩ ∧
      rewired.edge? 12 = some ⟨12, 1, 2, false, .ofInt 1, .ofInt 1⟩ ∧
      ¬rewired.Joined (rewired.pathTo (straight.cheapestTree 1) 3) := by
  have path : rewired.pathTo (straight.cheapestTree 1) 3 = ⟨[⟨1, none⟩, ⟨3, some 12⟩]⟩ := by decide +kernel
  have moved : rewired.edge? 12 = some ⟨12, 1, 2, false, .ofInt 1, .ofInt 1⟩ := by decide +kernel
  refine ⟨built_ofConnections _, path, moved, ?_⟩
  rw [path]
  intro joined
  obtain ⟨edge, e, taken, found, joins⟩ := (List.isChain_cons_cons.mp joined).1
  cases taken
  cases moved.symm.trans found
  revert joins
  decide

end Network

end FeatureNet
