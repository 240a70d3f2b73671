import FeatureNet.Proofs.TreePaths

namespace FeatureNet

open Binary64 Network

/-- What is scanned when vertices are visited in an order: with each of them, the edges listed there. -/
def Network.scans (n : Network) (order : List FeatureId) : List (FeatureId × FeatureId) :=
  order.flatMap fun u => (n.outgoing u).map (u, ·)

namespace PathTree

/-- The scan that led to a vertex: the vertex at the other end of its predecessor edge, and that edge. -/
def lead? (t : PathTree) (n : Network) (v : FeatureId) : Option (FeatureId × FeatureId) :=
  (t.predecessor? v).join.bind fun edge => (n.edge? edge).map fun e => (e.opposite v, edge)

/-- When the lead of a vertex was scanned. The root, to which nothing leads, comes before all. -/
def time (t : PathTree) (n : Network) (scans : List (FeatureId × FeatureId)) (v : FeatureId) : Nat :=
  match t.lead? n v with
  | none => 0
  | some scan => scans.idxOf scan + 1

/-- A vertex is nearer than another, or as near and was led to earlier. -/
def Ahead (t : PathTree) (n : Network) (scans : List (FeatureId × FeatureId)) (v w : FeatureId) : Prop :=
  ∀ d d', t.distance? v = some d → t.distance? w = some d' →
    d.magnitude < d'.magnitude ∨ d.magnitude = d'.magnitude ∧ t.time n scans v < t.time n scans w

/-- A scan offers a vertex a distance, or less. -/
def Offers (t : PathTree) (n : Network) (scan : FeatureId × FeatureId) (v : FeatureId) (d : Binary64) : Prop :=
  ∃ e du, n.edge? scan.2 = some e ∧ e.opposite scan.1 = v ∧ t.distance? scan.1 = some du ∧
    (du + e.cost).magnitude ≤ d.magnitude

/-- What the scans decide: every lead is the first scan with its offer, and the visits went by distance and
time. -/
structure Timed (t : PathTree) (n : Network) (root : FeatureId) (order : List FeatureId)
    (scans : List (FeatureId × FeatureId)) : Prop where
  start : t.lead? n root = none
  led {v scan} : t.lead? n v = some scan → scan ∈ scans
  earliest {v scan d} : t.lead? n v = some scan → t.distance? v = some d →
    ∀ other ∈ scans, t.Offers n other v d → scans.idxOf scan ≤ scans.idxOf other
  sorted : order.Pairwise (t.Ahead n scans)

variable {t : PathTree} {n : Network} {root u v w edge : FeatureId} {e : Edge} {d du : Binary64}
  {order : List FeatureId}
  {scans : List (FeatureId × FeatureId)} {scan : FeatureId × FeatureId}

theorem lead?_eq_some :
    t.lead? n v = some scan ↔ ∃ e, t.predecessor? v = some (some scan.2) ∧ n.edge? scan.2 = some e ∧
      e.opposite v = scan.1 := by
  unfold lead?
  rw [Option.bind_eq_some_iff]
  constructor
  · rintro ⟨edge, reached, leads⟩
    obtain ⟨e, found, rfl⟩ := Option.map_eq_some_iff.mp leads
    exact ⟨e, Option.join_eq_some_iff.mp reached, found, rfl⟩
  · rintro ⟨e, reached, found, across⟩
    refine ⟨scan.2, Option.join_eq_some_iff.mpr reached, ?_⟩
    rw [found, Option.map_some, across]

theorem Parent.lead? (formed : n.WellFormed) (step : t.Parent n order v d u edge e du) :
    t.lead? n v = some (u, edge) :=
  lead?_eq_some.mpr ⟨e, step.predecessor, step.found, step.back formed⟩

theorem lead?_reach (found : n.edge? edge = some e) (back : e.opposite v = u) (d : Binary64) :
    (t.reach v edge d).lead? n v = some (u, edge) := by
  refine lead?_eq_some.mpr ⟨e, ?_, found, back⟩
  rw [predecessor?_reach, if_pos rfl]

theorem lead?_reach_of_ne (t : PathTree) (n : Network) (edge : FeatureId) (d : Binary64) (different : w ≠ v) :
    (t.reach v edge d).lead? n w = t.lead? n w := by
  unfold lead?
  rw [predecessor?_reach, if_neg different]

theorem Timed.time_le (timed : t.Timed n root order scans) (v : FeatureId) :
    t.time n scans v ≤ scans.length := by
  unfold time
  split
  · exact Nat.zero_le _
  · next lead => exact List.idxOf_lt_length_of_mem (timed.led lead)

/-- Later scans change no time. -/
theorem Timed.time_append (timed : t.Timed n root order scans) (more : List (FeatureId × FeatureId))
    (v : FeatureId) : t.time n (scans ++ more) v = t.time n scans v := by
  unfold time
  split
  · rfl
  · next lead => rw [List.idxOf_append_of_mem (timed.led lead)]

theorem Timed.ahead_append (timed : t.Timed n root order scans) (more : List (FeatureId × FeatureId)) :
    t.Ahead n (scans ++ more) = t.Ahead n scans := by
  funext v w
  unfold Ahead
  simp only [timed.time_append]

/-- A scan that comes too late to lead anywhere. -/
theorem Timed.concat (timed : t.Timed n root order scans) (scan : FeatureId × FeatureId) :
    t.Timed n root order (scans ++ [scan]) where
  start := timed.start
  led lead := List.mem_append_left _ (timed.led lead)
  earliest {v first d} lead atV other member offers := by
    have place := List.idxOf_lt_length_of_mem (timed.led lead)
    rw [List.idxOf_append_of_mem (timed.led lead)]
    by_cases before : other ∈ scans
    · rw [List.idxOf_append_of_mem before]
      exact timed.earliest lead atV other before offers
    · rw [List.idxOf_append_of_notMem before]
      omega
  sorted := by
    rw [timed.ahead_append]
    exact timed.sorted

theorem time_reach (unscanned : (u, edge) ∉ scans) (found : n.edge? edge = some e) (back : e.opposite v = u)
    (d : Binary64) : (t.reach v edge d).time n (scans ++ [(u, edge)]) v = scans.length + 1 := by
  unfold time
  rw [lead?_reach found back]
  simp [List.idxOf_append_of_notMem unscanned]

theorem Timed.time_reach_of_ne (timed : t.Timed n root order scans) (scan : FeatureId × FeatureId)
    (edge : FeatureId) (d : Binary64) (different : w ≠ v) :
    (t.reach v edge d).time n (scans ++ [scan]) w = t.time n scans w := by
  rw [← timed.time_append [scan]]
  unfold time
  rw [lead?_reach_of_ne _ _ _ _ different]

/-- A scan that leads to an unvisited vertex, to which no earlier one offered as little. -/
theorem Timed.reach (timed : t.Timed n root order scans) (rooted : root ∈ order)
    (scanned : ∀ scan ∈ scans, scan.1 ∈ order) (fresh : v ∉ order) (found : n.edge? edge = some e)
    (back : e.opposite v = u) (fewer : ∀ scan ∈ scans, ¬t.Offers n scan v d) :
    (t.reach v edge d).Timed n root order (scans ++ [(u, edge)]) := by
  have other {w : FeatureId} (visited : w ∈ order) : w ≠ v := fun same => fresh (same ▸ visited)
  have kept {w : FeatureId} (different : w ≠ v) : (t.reach v edge d).distance? w = t.distance? w :=
    t.distance?_reach_of_ne edge d different
  have offered {scan : FeatureId × FeatureId} {w : FeatureId} {d' : Binary64} (old : scan ∈ scans)
      (offers : (t.reach v edge d).Offers n scan w d') : t.Offers n scan w d' := by
    obtain ⟨e', du, found', across, atScan, le⟩ := offers
    exact ⟨e', du, found', across, (kept (other (scanned scan old))).symm.trans atScan, le⟩
  refine ⟨(lead?_reach_of_ne _ _ _ _ (other rooted)).trans timed.start, fun {w scan} lead => ?_,
    fun {w first d'} lead atW scan member offers => ?_, ?_⟩
  · by_cases same : w = v
    · rw [same, lead?_reach found back] at lead
      exact List.mem_append_right _ (List.mem_singleton.mpr (Option.some.inj lead).symm)
    · rw [lead?_reach_of_ne _ _ _ _ same] at lead
      exact List.mem_append_left _ (timed.led lead)
  · by_cases same : w = v
    · rw [same, lead?_reach found back] at lead
      rw [same, distance?_reach_self] at atW
      cases lead
      cases atW
      rcases List.mem_append.mp member with old | new
      · exact absurd (offered old (same ▸ offers)) (fewer scan old)
      · rw [List.mem_singleton.mp new]
    · rw [lead?_reach_of_ne _ _ _ _ same] at lead
      rw [kept same] at atW
      have place := List.idxOf_lt_length_of_mem (timed.led lead)
      rw [List.idxOf_append_of_mem (timed.led lead)]
      by_cases old : scan ∈ scans
      · rw [List.idxOf_append_of_mem old]
        exact timed.earliest lead atW scan old (offered old offers)
      · rw [List.idxOf_append_of_notMem old]
        omega
  · refine timed.sorted.imp_of_mem fun {x y} visitedX visitedY ahead d d' atX atY => ?_
    rw [kept (other visitedX)] at atX
    rw [kept (other visitedY)] at atY
    rw [timed.time_reach_of_ne _ _ _ (other visitedX), timed.time_reach_of_ne _ _ _ (other visitedY)]
    exact ahead d d' atX atY

end PathTree

namespace Search

variable {n : Network} {root u edge : FeatureId} {e : Edge} {order : List FeatureId}
  {scans : List (FeatureId × FeatureId)} {s : Search} {distance : Binary64}

/-- What holds of a search after the visits of `order` and the scans of `scans`. What waits in the frontier
under an earlier number was led to earlier. -/
structure Timed (n : Network) (root : FeatureId) (order : List FeatureId)
    (scans : List (FeatureId × FeatureId)) (s : Search) : Prop where
  tree : s.tree.Timed n root order scans
  scanned {scan} : scan ∈ scans → scan.1 ∈ order
  settled {scan} : scan ∈ scans → Settled n s.tree scan.1 [scan.2]
  queued {c c' number number' v w} : (c, number, v) ∈ s.frontier.entries →
    (c', number', w) ∈ s.frontier.entries → s.tree.distance? v = some c → s.tree.distance? w = some c' →
      number < number' → s.tree.time n scans v < s.tree.time n scans w
  ahead {v w} : v ∈ order → w ∉ order → s.tree.Ahead n scans v w

/-- A scan that changes nothing. -/
theorem Timed.refuse (timed : s.Timed n root order scans) (atU : u ∈ order)
    (settled : Settled n s.tree u [edge]) : s.Timed n root order (scans ++ [(u, edge)]) where
  tree := timed.tree.concat _
  scanned member := by
    rcases List.mem_append.mp member with old | new
    · exact timed.scanned old
    · rw [List.mem_singleton.mp new]
      exact atU
  settled member := by
    rcases List.mem_append.mp member with old | new
    · exact timed.settled old
    · rw [List.mem_singleton.mp new]
      exact settled
  queued entry entry' atV atW less := by
    rw [timed.tree.time_append, timed.tree.time_append]
    exact timed.queued entry entry' atV atW less
  ahead visited waiting := by
    rw [timed.tree.ahead_append]
    exact timed.ahead visited waiting

/-- A scan that leads to an unvisited vertex, nearer than it was known. -/
theorem Timed.reach (formed : n.WellFormed) (sound : s.Sound n root order) (timed : s.Timed n root order scans)
    (atU : u ∈ order) (known : s.tree.distance? u = some distance)
    (latest : ∀ w ∈ order, ∀ d, s.tree.distance? w = some d → d.magnitude ≤ distance.magnitude)
    (listed : edge ∈ n.outgoing u) (found : n.edge? edge = some e) (fresh : e.opposite u ∉ order)
    (less : distance + e.cost < s.known (e.opposite u)) (free : n.isBlocked (e.opposite u) = false)
    (settled : ∀ {scan}, scan ∈ scans ++ [(u, edge)] →
      Settled n (s.tree.reach (e.opposite u) edge (distance + e.cost)) scan.1 [scan.2]) :
    Timed n root order (scans ++ [(u, edge)]) { s with
      tree := s.tree.reach (e.opposite u) edge (distance + e.cost)
      frontier := s.frontier.push (distance + e.cost) (e.opposite u) } := by
  have costD := sound.isCost_distance known
  have costE := formed.cost found
  obtain ⟨finite, closer⟩ := sound.offer_less (isCost_add costD costE) less
  have farther : distance.magnitude ≤ (distance + e.cost).magnitude := magnitude_le_add costD costE
  obtain ⟨e', found', leaves⟩ := formed.listed.mp listed
  cases found.symm.trans found'
  have back : e.opposite (e.opposite u) = u := Edge.eq_opposite leaves
  generalize offerEq : distance + e.cost = offer at *
  generalize vEq : e.opposite u = v at *
  -- No scan before this one offered as little.
  have fewer (scan : FeatureId × FeatureId) (member : scan ∈ scans) : ¬s.tree.Offers n scan v offer := by
    rintro ⟨e', du, found', across, atScan, le⟩
    obtain ⟨d, atV, less⟩ := timed.settled member _ (List.mem_singleton_self _) e' found'
      (across ▸ free) du atScan (Nat.lt_of_le_of_lt le finite)
    have := closer d (across ▸ atV)
    omega
  have unscanned : (u, edge) ∉ scans := fun member =>
    fewer _ member ⟨e, distance, found, vEq, known, by rw [offerEq]⟩
  have now := PathTree.time_reach (t := s.tree) unscanned found back offer
  have before {w : FeatureId} (different : w ≠ v) :=
    timed.tree.time_reach_of_ne (u, edge) edge offer different
  have early (w : FeatureId) : s.tree.time n scans w < scans.length + 1 :=
    Nat.lt_succ_of_le (timed.tree.time_le w)
  -- What waits for this vertex already waits at a greater cost.
  have renewed {c : Binary64} {number : Nat} {w : FeatureId} (entry : (c, number, w) ∈ s.frontier.entries)
      (atW : (s.tree.reach v edge offer).distance? w = some c) : w ≠ v ∧ s.tree.distance? w = some c := by
    rcases PathTree.distance?_reach_cases atW with ⟨rfl, rfl⟩ | old
    · obtain ⟨_, _, d, atV, le⟩ := sound.stale entry
      have := closer d atV
      omega
    · exact old
  refine ⟨timed.tree.reach sound.rooted (fun _ => timed.scanned) fresh found back fewer, fun member => ?_,
    settled, fun {c c' number number' w w'} entry entry' atW atW' earlier => ?_,
    fun {x w} visited waiting d d' atX atW => ?_⟩
  · rcases List.mem_append.mp member with old | new
    · exact timed.scanned old
    · rw [List.mem_singleton.mp new]
      exact atU
  · rcases Frontier.eq_or_mem_of_mem_push entry with new | old
    · cases new
      rcases Frontier.eq_or_mem_of_mem_push entry' with new' | old'
      · cases new'
        exact absurd earlier (Nat.lt_irrefl _)
      · exact absurd (sound.ordered.numbered _ old') (Nat.lt_asymm earlier)
    · obtain ⟨different, atW⟩ := renewed old atW
      rw [before different]
      rcases Frontier.eq_or_mem_of_mem_push entry' with new' | old'
      · cases new'
        rw [now]
        exact early w
      · obtain ⟨different', atW'⟩ := renewed old' atW'
        rw [before different']
        exact timed.queued old old' atW atW' earlier
  · have other : x ≠ v := fun same => fresh (same ▸ visited)
    rw [s.tree.distance?_reach_of_ne edge offer other] at atX
    rw [before other]
    rcases PathTree.distance?_reach_cases atW with ⟨rfl, rfl⟩ | ⟨different, old⟩
    · have near := latest x visited d atX
      have less := early x
      rw [now]
      omega
    · rw [before different]
      exact timed.ahead visited waiting d d' atX old

/-- One relaxation from the vertex visited last is one more scan. -/
theorem Timed.relax (formed : n.WellFormed) (sound : s.Sound n root order) (timed : s.Timed n root order scans)
    (atU : u ∈ order) (known : s.tree.distance? u = some distance)
    (latest : ∀ w ∈ order, ∀ d, s.tree.distance? w = some d → d.magnitude ≤ distance.magnitude)
    (listed : edge ∈ n.outgoing u) :
    (Search.relax n u distance s edge).Timed n root order (scans ++ [(u, edge)]) := by
  obtain ⟨_, narrows, settled⟩ := sound.relax formed atU known latest listed
  have all {scan : FeatureId × FeatureId} (member : scan ∈ scans ++ [(u, edge)]) :
      Settled n (Search.relax n u distance s edge).tree scan.1 [scan.2] := by
    rcases List.mem_append.mp member with old | new
    · exact (timed.settled old).mono (timed.scanned old) narrows
    · rw [List.mem_singleton.mp new]
      exact settled
  revert settled all
  unfold Search.relax
  split
  · exact fun settled _ => timed.refuse atU settled
  · next e found =>
    dsimp only
    split
    · next taken =>
      intro _ all
      obtain ⟨fresh, less, free⟩ := taken
      rw [sound.visited] at fresh
      exact timed.reach formed sound atU known latest listed found fresh less free all
    · exact fun settled _ => timed.refuse atU settled

theorem Timed.foldl_relax (formed : n.WellFormed) (sound : s.Sound n root order)
    (timed : s.Timed n root order scans) (atU : u ∈ order) (known : s.tree.distance? u = some distance)
    (latest : ∀ w ∈ order, ∀ d, s.tree.distance? w = some d → d.magnitude ≤ distance.magnitude)
    {edges : List FeatureId} (listed : ∀ edge ∈ edges, edge ∈ n.outgoing u) :
    (edges.foldl (Search.relax n u distance) s).Timed n root order (scans ++ edges.map (u, ·)) := by
  induction edges generalizing s scans with
  | nil => rwa [List.map_nil, List.append_nil]
  | cons edge rest ih =>
    have first := listed edge (List.mem_cons_self ..)
    obtain ⟨sound', narrows, _⟩ := sound.relax formed atU known latest first
    have latest' : ∀ w ∈ order, ∀ d, (Search.relax n u distance s edge).tree.distance? w = some d →
        d.magnitude ≤ distance.magnitude :=
      fun w member d atW => latest w member d ((narrows.1 w member).symm.trans atW)
    have onward := ih sound' (timed.relax formed sound atU known latest first)
      ((narrows.1 u atU).trans known) latest' fun edge member => listed edge (List.mem_cons_of_mem _ member)
    rwa [List.append_assoc, List.singleton_append] at onward

/-- Dropping a stale entry. -/
theorem Timed.drop (timed : s.Timed n root order scans) {frontier : Frontier FeatureId}
    (taken : s.frontier.popMin? = some ((distance, u), frontier)) :
    Timed n root order scans { s with frontier } := by
  obtain ⟨number, entries, _⟩ := Frontier.entries_of_popMin? taken
  have others {e : Binary64 × Nat × FeatureId} (member : e ∈ frontier.entries) : e ∈ s.frontier.entries :=
    entries ▸ List.mem_cons_of_mem _ member
  exact ⟨timed.tree, timed.scanned, timed.settled,
    fun entry entry' => timed.queued (others entry) (others entry'), timed.ahead⟩

/-- Taking the entry of a vertex not visited before: what still waits is farther, or as far and was led to
later. -/
theorem Timed.take (sound : s.Sound n root order) (timed : s.Timed n root order scans)
    {frontier : Frontier FeatureId} (taken : s.frontier.popMin? = some ((distance, u), frontier))
    (fresh : u ∉ order) :
    Timed n root (order ++ [u]) scans { s with frontier, visited := s.visited.insert u } := by
  obtain ⟨number, entries, _⟩ := Frontier.entries_of_popMin? taken
  have first : (distance, number, u) ∈ s.frontier.entries := entries ▸ List.mem_cons_self ..
  obtain ⟨_, known, _⟩ := sound.take taken fresh
  refine ⟨⟨timed.tree.start, timed.tree.led, timed.tree.earliest, ?_⟩,
    fun member => List.mem_append_left _ (timed.scanned member), timed.settled, (timed.drop taken).queued,
    fun {v w} visited waiting => ?_⟩
  · refine List.pairwise_append.mpr ⟨timed.tree.sorted, List.pairwise_singleton .., fun x visited y now => ?_⟩
    rw [List.mem_singleton.mp now]
    exact timed.ahead visited fresh
  · rw [List.mem_append, List.mem_singleton, not_or] at waiting
    rcases List.mem_append.mp visited with before | now
    · exact timed.ahead before waiting.1
    · rw [List.mem_singleton.mp now]
      intro d d' atU atW
      rw [known] at atU
      cases atU
      obtain ⟨number', entry⟩ := sound.pending atW waiting.1
      have ascending := sound.ordered.ascending
      have later := entry
      rw [entries] at ascending later
      have inFrontier := (List.mem_cons.mp later).resolve_left fun same => by
        cases same
        exact waiting.2 rfl
      have order := Frontier.before_iff.mp ((List.pairwise_cons.mp ascending).1 _ inFrontier)
      dsimp only at order
      have costU := sound.isCost_distance known
      have costW := sound.isCost_distance atW
      have le := magnitude_le_of_rank_le costU costW (by omega)
      rcases Nat.lt_or_eq_of_le le with less | same
      · exact .inl less
      · have equal : distance = d' :=
          ext_parts ((sound.walked known).2.1.trans (sound.walked atW).2.1.symm) same
        subst equal
        exact .inr ⟨rfl, timed.queued first entry known atW (by omega)⟩

theorem timed_first (n : Network) (root : FeatureId) : (first root).Timed n root [root] [] := by
  have unled (v : FeatureId) : (first root).tree.lead? n v = none := by
    have only : (first root).tree.predecessor? v = if v = root then some none else none := IdMap.get?_insert ..
    unfold PathTree.lead?
    rw [only]
    split <;> rfl
  refine ⟨⟨unled root, fun {v scan} lead => ?_, fun _ _ scan member => absurd member List.not_mem_nil,
      List.pairwise_singleton _ root⟩,
    fun member => absurd member List.not_mem_nil, fun member => absurd member List.not_mem_nil,
    fun entry => absurd entry List.not_mem_nil, fun {v w} _ waiting d d' _ atW => ?_⟩
  · cases (unled v).symm.trans lead
  · exact absurd (List.mem_singleton.mpr (distance?_first atW).1) waiting

end Search

variable {n : Network} {root : FeatureId} {order : List FeatureId}

theorem Network.scans_concat (n : Network) (order : List FeatureId) (u : FeatureId) :
    n.scans (order ++ [u]) = n.scans order ++ (n.outgoing u).map (u, ·) := by
  simp [scans]

theorem Network.mem_scans {scan : FeatureId × FeatureId} :
    scan ∈ n.scans order ↔ scan.1 ∈ order ∧ scan.2 ∈ n.outgoing scan.1 := by
  obtain ⟨u, edge⟩ := scan
  simp [scans]

theorem Network.idxOf_listing (edges : List FeatureId) (u edge : FeatureId) :
    (edges.map (u, ·)).idxOf (u, edge) = edges.idxOf edge := by
  induction edges with
  | nil => rfl
  | cons first edges ih =>
    by_cases same : first = edge
    · simp [same]
    · rw [List.map_cons, List.idxOf_cons_ne _ (by simpa using same), List.idxOf_cons_ne _ same, ih]

/-- Scans go by the visits of their vertices, and at one vertex by the places of their edges in its list. -/
theorem Network.idxOf_scans_lt_iff (nodup : order.Nodup) {scan scan' : FeatureId × FeatureId}
    (member : scan ∈ n.scans order) (member' : scan' ∈ n.scans order) :
    (n.scans order).idxOf scan < (n.scans order).idxOf scan' ↔
      order.idxOf scan.1 < order.idxOf scan'.1 ∨
        scan.1 = scan'.1 ∧ (n.outgoing scan.1).idxOf scan.2 < (n.outgoing scan.1).idxOf scan'.2 := by
  induction order using List.reverseRecOn with
  | nil => exact absurd (mem_scans.mp member).1 List.not_mem_nil
  | append_singleton order w ih =>
    rw [List.nodup_append] at nodup
    obtain ⟨nodup, _, apart⟩ := nodup
    have last : w ∉ order := fun before => apart w before w (List.mem_singleton_self w) rfl
    have place {u : FeatureId} (before : u ∈ order) : (order ++ [w]).idxOf u = order.idxOf u :=
      List.idxOf_append_of_mem before
    have placeLast : (order ++ [w]).idxOf w = order.length := by simp [List.idxOf_append_of_notMem last]
    have older {scan : FeatureId × FeatureId} (old : scan ∈ n.scans order) :
        order.idxOf scan.1 < order.length := List.idxOf_lt_length_of_mem (mem_scans.mp old).1
    have cases {scan : FeatureId × FeatureId} (member : scan ∈ n.scans (order ++ [w])) :
        scan ∈ n.scans order ∨ scan ∉ n.scans order ∧ scan.1 = w := by
      obtain ⟨visited, listed⟩ := mem_scans.mp member
      rcases List.mem_append.mp visited with before | now
      · exact .inl (mem_scans.mpr ⟨before, listed⟩)
      · have atW := List.mem_singleton.mp now
        exact .inr ⟨fun old => last (atW ▸ (mem_scans.mp old).1), atW⟩
    rw [n.scans_concat]
    rcases cases member with old | ⟨new, atW⟩
    · rw [List.idxOf_append_of_mem old, place (mem_scans.mp old).1]
      rcases cases member' with old' | ⟨new', atW'⟩
      · rw [List.idxOf_append_of_mem old', place (mem_scans.mp old').1]
        exact ih nodup old old'
      · rw [List.idxOf_append_of_notMem new', atW', placeLast]
        have := List.idxOf_lt_length_of_mem old
        exact iff_of_true (by omega) (.inl (older old))
    · rw [List.idxOf_append_of_notMem new, atW, placeLast]
      rcases cases member' with old' | ⟨new', atW'⟩
      · rw [List.idxOf_append_of_mem old', place (mem_scans.mp old').1]
        have := List.idxOf_lt_length_of_mem old'
        refine iff_of_false (by omega) ?_
        rintro (earlier | ⟨same, _⟩)
        · exact absurd (older old') (Nat.lt_asymm earlier)
        · exact last (same ▸ (mem_scans.mp old').1)
      · obtain ⟨u, edge⟩ := scan
        obtain ⟨u', edge'⟩ := scan'
        cases atW
        cases atW'
        rw [List.idxOf_append_of_notMem new', idxOf_listing, idxOf_listing, placeLast]
        simp

/-- A search goes through the edges listed at the vertices that it visits, in the order of the visits. -/
theorem Search.Timed.run (formed : n.WellFormed) {s : Search} (sound : s.Sound n root order)
    (settled : ∀ u ∈ order, Search.Settled n s.tree u (n.outgoing u))
    (timed : s.Timed n root order (n.scans order)) :
    ∃ order', (Search.run n s).Spans n root order' ∧
      (Search.run n s).Timed n root order' (n.scans order') := by
  fun_induction Search.run n s generalizing order with
  | case1 s empty => exact ⟨order, sound.spans settled (Frontier.popMin?_eq_none_iff.mp empty), timed.tree⟩
  | case2 s distance u frontier taken stale ih =>
    exact ih (sound.drop taken (sound.visited.mp stale)) settled (timed.drop taken)
  | case3 s distance u frontier taken fresh ih =>
    have unvisited : u ∉ order := fun old => fresh (sound.visited.mpr old)
    have now : u ∈ order ++ [u] := List.mem_append_right _ (List.mem_singleton_self u)
    obtain ⟨atU, known, latest⟩ := sound.take taken unvisited
    obtain ⟨sound', settled'⟩ := sound.visit formed settled taken unvisited
    refine ih sound' settled' ?_
    rw [n.scans_concat]
    exact (timed.take sound taken unvisited).foldl_relax formed atU now known latest fun _ => id

/-- The tree of a known vertex and the order in which its vertices were visited. -/
theorem Network.exists_timed (formed : n.WellFormed) (known : n.containsVertex root = true) :
    ∃ order, (n.cheapestTree root).Spans n root order ∧
      (n.cheapestTree root).Timed n root order (n.scans order) := by
  have sound := Search.sound_first n root
  have now := List.mem_singleton_self root
  obtain ⟨sound', _, settled⟩ :=
    sound.foldl_relax formed now sound.start (Search.latest_first root) fun _ => id
  rw [cheapestTree, if_pos known, Search.run_start]
  refine Search.Timed.run formed sound' (fun u member => List.mem_singleton.mp member ▸ settled) ?_
  rw [show n.scans [root] = n.scans [] ++ (n.outgoing root).map (root, ·) from n.scans_concat [] root]
  exact (Search.timed_first n root).foldl_relax formed sound now sound.start (Search.latest_first root)
    fun _ => id

namespace PathTree

variable {t : PathTree} {n : Network} {root v w : FeatureId} {order : List FeatureId} {d : Binary64}
  {scan : FeatureId × FeatureId}

/-- The visits went by distance and time. -/
theorem Timed.before_iff (timed : t.Timed n root order (n.scans order)) (spans : t.Spans n root order)
    {d' : Binary64} (distance : t.distance? v = some d) (distance' : t.distance? w = some d') :
    order.idxOf v < order.idxOf w ↔ d.magnitude < d'.magnitude ∨
      d.magnitude = d'.magnitude ∧ t.time n (n.scans order) v < t.time n (n.scans order) w := by
  have atV := spans.reached.mpr ⟨d, distance⟩
  have atW := spans.reached.mpr ⟨d', distance'⟩
  have ahead {v w : FeatureId} (atW : w ∈ order) (before : order.idxOf v < order.idxOf w) :
      t.Ahead n (n.scans order) v w := by
    have inside := List.idxOf_lt_length_of_mem atW
    have pair := List.pairwise_iff_getElem.mp timed.sorted _ _ (Nat.lt_trans before inside) inside before
    rwa [List.getElem_idxOf, List.getElem_idxOf] at pair
  refine ⟨fun before => ahead atW before d d' distance distance', fun first => ?_⟩
  rcases Nat.lt_trichotomy (order.idxOf v) (order.idxOf w) with before | same | after
  · exact before
  · have equal := (List.idxOf_inj atV).mp same
    subst equal
    cases distance.symm.trans distance'
    omega
  · have second := ahead atV after d' d distance' distance
    omega

/-- Every vertex but the root has a lead, which offers its distance. -/
theorem Spans.exists_lead (formed : n.WellFormed) (spans : t.Spans n root order) (atV : t.distance? v = some d)
    (notRoot : v ≠ root) : ∃ scan, t.lead? n v = some scan ∧ scan.1 ∈ order ∧ t.Offers n scan v d := by
  obtain ⟨u, edge, e, du, step⟩ := spans.parent atV notRoot
  exact ⟨(u, edge), step.lead? formed, step.visited, e, du, step.found, step.across, step.distance,
    by rw [step.sum]⟩

theorem time_of_lead {scans : List (FeatureId × FeatureId)} (lead : t.lead? n v = some scan) :
    t.time n scans v = scans.idxOf scan + 1 := by
  unfold time
  rw [lead]

theorem Timed.time_root {scans : List (FeatureId × FeatureId)} (timed : t.Timed n root order scans) :
    t.time n scans root = 0 := by
  unfold time
  rw [timed.start]

theorem Timed.ne_root_of_later {scans : List (FeatureId × FeatureId)} (timed : t.Timed n root order scans)
    (later : t.time n scans v < t.time n scans w) : w ≠ root := by
  rintro rfl
  rw [timed.time_root] at later
  exact Nat.not_lt_zero _ later

/-- The root is visited first. -/
theorem Timed.root_first (timed : t.Timed n root order (n.scans order)) (formed : n.WellFormed)
    (spans : t.Spans n root order) (atW : w ∈ order) (notRoot : w ≠ root) : order.idxOf root < order.idxOf w := by
  obtain ⟨d, distance⟩ := spans.reached.mp atW
  obtain ⟨scan, lead, _⟩ := spans.exists_lead formed distance notRoot
  rw [timed.before_iff spans spans.start distance, time_of_lead lead, timed.time_root]
  have zero : Binary64.zero.magnitude = 0 := by decide
  rw [zero]
  omega

end PathTree

end FeatureNet
