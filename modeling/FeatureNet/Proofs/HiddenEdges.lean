import FeatureNet.Network.Blocking
import FeatureNet.Search.Alternatives

namespace FeatureNet

namespace Network

theorem edge?_setCost (n : Network) (id key : FeatureId) (cost : Binary64) :
    (n.setCost id cost).edge? key =
      (n.edge? key).map fun e => if key = id then { e with cost } else e := by
  simp only [setCost, edge?, IdMap.get?_modify]
  split <;> simp

theorem ext_edge? {n m : Network} (vertices : n.vertices = m.vertices)
    (edges : ∀ id, n.edge? id = m.edge? id) : n = m := by
  have same : n.edges = m.edges := IdMap.ext_get? edges
  cases n
  cases m
  cases vertices
  cases same
  rfl

/-- An edge's own cost put back undoes any other cost put on it. -/
theorem setCost_setCost {n : Network} {id : FeatureId} {own : Binary64} (cost : Binary64)
    (atOwn : n.edgeCost? id = some own) : (n.setCost id cost).setCost id own = n := by
  refine ext_edge? rfl fun key => ?_
  rw [edge?_setCost, edge?_setCost]
  cases found : n.edge? key with
  | none => rfl
  | some e =>
    by_cases same : key = id
    · subst same
      have value : e.cost = own := by simpa [edgeCost?, found] using atOwn
      simp [← value]
    · simp [same]

end Network

namespace Hiding

/-- A network under a scope: the edges named in the scope cost infinity, and all else is as it was. -/
structure Masks (h : Hiding) (n : Network) : Prop where
  vertices : h.network.vertices = n.vertices
  edges : ∀ id, h.network.edge? id =
    (n.edge? id).map fun e => if id ∈ h.named then { e with cost := Binary64.infinity } else e

theorem masks_ofNetwork (n : Network) : (ofNetwork n).Masks n where
  vertices := rfl
  edges id := by simp [ofNetwork]

theorem mem_named_hide {h : Hiding} {edge id : FeatureId} :
    id ∈ (h.hide edge).named ↔ id = edge ∨ id ∈ h.named := by
  unfold hide
  split
  · next named =>
    constructor
    · exact Or.inr
    · rintro (same | old)
      · exact same ▸ named
      · exact old
  · dsimp only
    split <;> exact IdSet.mem_insert

theorem Masks.hide {h : Hiding} {n : Network} (masks : h.Masks n) (edge : FeatureId) :
    (h.hide edge).Masks n := by
  unfold Hiding.hide
  split
  · exact masks
  · next fresh =>
    dsimp only
    split
    · next unknown =>
      refine ⟨masks.vertices, fun id => ?_⟩
      have absent : h.network.edge? edge = none := by simpa [Network.edgeCost?] using unknown
      dsimp only
      by_cases same : id = edge
      · have none : n.edge? edge = none := by simpa [absent] using (masks.edges edge).symm
        rw [same, absent, none]
        rfl
      · rw [masks.edges id]
        simp [same]
    · refine ⟨masks.vertices, fun id => ?_⟩
      rw [Network.edge?_setCost, masks.edges id]
      cases n.edge? id with
      | none => rfl
      | some e =>
        by_cases same : id = edge
        · subst same
          simp [fresh]
        · simp [same]

/-- Hiding for one thing after another, each of which has edges named. -/
theorem Masks.foldl {α : Type} {n : Network} {f : Hiding → α → Hiding} {P : α → FeatureId → Prop}
    (each : ∀ (h : Hiding) (a : α), h.Masks n →
      (f h a).Masks n ∧ ∀ id, id ∈ (f h a).named ↔ P a id ∨ id ∈ h.named)
    {h : Hiding} (masks : h.Masks n) (l : List α) :
    (l.foldl f h).Masks n ∧
      ∀ id, id ∈ (l.foldl f h).named ↔ (∃ a ∈ l, P a id) ∨ id ∈ h.named := by
  induction l generalizing h with
  | nil => exact ⟨masks, fun id => by simp⟩
  | cons a rest ih =>
    obtain ⟨once, named⟩ := each h a masks
    obtain ⟨still, named'⟩ := ih once
    refine ⟨still, fun id => ?_⟩
    rw [List.foldl_cons, named', named]
    simp only [List.mem_cons, exists_eq_or_imp]
    exact or_left_comm.trans or_assoc.symm

theorem Masks.hideAll {h : Hiding} {n : Network} (masks : h.Masks n) (edges : List FeatureId) :
    (edges.foldl Hiding.hide h).Masks n ∧
      ∀ id, id ∈ (edges.foldl Hiding.hide h).named ↔ id ∈ edges ∨ id ∈ h.named := by
  obtain ⟨still, named⟩ := Masks.foldl (P := fun edge id => id = edge)
    (fun _ edge masks => ⟨masks.hide edge, fun _ => mem_named_hide⟩) masks edges
  exact ⟨still, fun id => by rw [named, exists_eq_right']⟩

theorem Masks.outgoing {h : Hiding} {n : Network} (masks : h.Masks n) (v : FeatureId) :
    h.network.outgoing v = n.outgoing v := by
  simp only [Network.outgoing, Network.vertex?, masks.vertices]

theorem Masks.isBlocked {h : Hiding} {n : Network} (masks : h.Masks n) (v : FeatureId) :
    h.network.isBlocked v = n.isBlocked v := by
  simp only [Network.isBlocked, Network.vertex?, masks.vertices]

theorem Masks.hideOutgoing {h : Hiding} {n : Network} (masks : h.Masks n) (v : FeatureId) :
    (h.hideOutgoing v).Masks n ∧
      ∀ id, id ∈ (h.hideOutgoing v).named ↔ id ∈ n.outgoing v ∨ id ∈ h.named := by
  rw [Hiding.hideOutgoing, masks.outgoing]
  exact masks.hideAll (n.outgoing v)

theorem close_hide (h : Hiding) (edge : FeatureId) : (h.hide edge).close = h.close := by
  unfold hide
  split
  · rfl
  · dsimp only
    split
    · rfl
    · next own atOwn =>
      simp only [close, List.foldl_cons]
      rw [Network.setCost_setCost _ atOwn]

theorem close_hideAll (h : Hiding) (edges : List FeatureId) :
    (edges.foldl hide h).close = h.close := by
  induction edges generalizing h with
  | nil => rfl
  | cons edge rest ih => rw [List.foldl_cons, ih, close_hide]

theorem close_hideOutgoing (h : Hiding) (v : FeatureId) : (h.hideOutgoing v).close = h.close :=
  h.close_hideAll (h.network.outgoing v)

/-- What can be asked of a scope: to hide an edge, or all that leave a vertex. -/
inductive Request
  | edge (id : FeatureId)
  | leaving (v : FeatureId)

def carryOut (h : Hiding) : Request → Hiding
  | .edge id => h.hide id
  | .leaving v => h.hideOutgoing v

/-- A scope of a network in which things have been asked for one after another. -/
def opened (n : Network) (requests : List Request) : Hiding := requests.foldl carryOut (ofNetwork n)

theorem masks_opened (n : Network) (requests : List Request) : (opened n requests).Masks n := by
  suffices general : ∀ h : Hiding, h.Masks n → (requests.foldl carryOut h).Masks n from
    general _ (masks_ofNetwork n)
  induction requests with
  | nil => exact fun _ masks => masks
  | cons request rest ih =>
    intro h masks
    cases request with
    | edge id => exact ih _ (masks.hide id)
    | leaving v => exact ih _ (masks.hideOutgoing v).1

/-- However many edges have been hidden, closing the scope gives the network back. -/
theorem close_opened (n : Network) (requests : List Request) : (opened n requests).close = n := by
  suffices general : ∀ h : Hiding, (requests.foldl carryOut h).close = h.close from general (ofNetwork n)
  induction requests with
  | nil => exact fun _ => rfl
  | cons request rest ih =>
    intro h
    rw [List.foldl_cons, ih]
    cases request with
    | edge id => exact h.close_hide id
    | leaving v => exact h.close_hideOutgoing v

end Hiding

namespace Ranking

theorem close_hideNext (root : List Step) (h : Hiding) (p : Path) :
    (hideNext root h p).close = h.close := by
  unfold hideNext
  split
  · split
    · exact h.close_hide _
    · rfl
  · rfl

/-- Closing the scope of a spur gives the network back. -/
theorem close_hideRoot (n : Network) (accepted : List Path) (passed : List Step) (spur : Step) :
    (hideRoot n accepted passed spur).close = n := by
  have next : ∀ (h : Hiding), (accepted.foldl (hideNext (passed ++ [spur])) h).close = h.close := by
    induction accepted with
    | nil => exact fun h => rfl
    | cons p rest ih => exact fun h => by rw [List.foldl_cons, ih, close_hideNext]
  have back : ∀ (h : Hiding),
      (passed.foldl (fun h step => h.hideOutgoing step.vertex) h).close = h.close := by
    clear next
    induction passed with
    | nil => exact fun h => rfl
    | cons step rest ih =>
      exact fun h => by rw [List.foldl_cons, ih, Hiding.close_hideOutgoing]
  rw [hideRoot, back, next]
  rfl

theorem network_explore (target : FeatureId) (r : Ranking) :
    (r.explore target).network = r.network ∧ (r.explore target).earlier = r.earlier ∧
      (r.explore target).latest = r.latest := by
  have step : ∀ (r : Ranking) (spur : List Step × Step),
      (leaveAt target r spur).network = r.network ∧ (leaveAt target r spur).earlier = r.earlier ∧
        (leaveAt target r spur).latest = r.latest := by
    intro r spur
    unfold leaveAt
    dsimp only
    rw [close_hideRoot]
    split <;> exact ⟨rfl, rfl, rfl⟩
  unfold explore
  generalize spurs [] r.latest.steps = l
  induction l generalizing r with
  | nil => exact ⟨rfl, rfl, rfl⟩
  | cons spur rest ih =>
    obtain ⟨network, earlier, latest⟩ := ih (leaveAt target r spur)
    obtain ⟨network', earlier', latest'⟩ := step r spur
    exact ⟨network.trans network', earlier.trans earlier', latest.trans latest'⟩

theorem network_accept (target : FeatureId) (more : Nat) (r : Ranking) :
    (accept target more r).network = r.network := by
  induction more generalizing r with
  | zero => rfl
  | succ more ih =>
    unfold accept
    dsimp only
    split
    · exact (network_explore target r).1
    · rw [ih]
      exact (network_explore target r).1

end Ranking

/-- The search for alternatives leaves its network as it was. -/
theorem Network.network_alternatives (n : Network) (source target : FeatureId) (count : Nat) :
    (n.alternatives source target count).2 = n := by
  unfold alternatives
  split
  · rfl
  · dsimp only
    split
    · rfl
    · exact Ranking.network_accept target _ _

end FeatureNet
