import FeatureNet.Proofs.SessionRuns

namespace FeatureNet

/-- What becomes of a set of vertices when those of a list are put in, or else taken out. -/
def Amended (blocked : Bool) (old : FeatureId → Prop) (done : List FeatureId) (v : FeatureId) : Prop :=
  match blocked with
  | true => old v ∨ v ∈ done
  | false => old v ∧ v ∉ done

section Amended

variable {blocked : Bool} {old next : FeatureId → Prop} {id v : FeatureId} {done : List FeatureId}

theorem amended_nil : Amended blocked old [] v ↔ old v := by
  cases blocked <;> simp [Amended]

/-- The first of the list comes first, and then the rest. -/
theorem amended_cons (one : next v ↔ if v = id then blocked = true else old v) :
    Amended blocked next done v ↔ Amended blocked old (id :: done) v := by
  by_cases same : v = id
  · subst same
    rw [if_pos rfl] at one
    cases blocked <;> simp [Amended, one]
  · rw [if_neg same] at one
    cases blocked <;> simp [Amended, one, same]

end Amended

namespace Store

/-- Puts an id in the store, or takes it out. -/
def write : Bool → FeatureId → Store → Except StoreError Unit × Store
  | true => add
  | false => remove

/-- The store after ids have been written one after another. -/
def writeEach (blocked : Bool) (ids : List FeatureId) (store : Store) : Store :=
  ids.foldl (fun store id => (store.write blocked id).2) store

theorem write_eq (store : Store) (blocked : Bool) (id : FeatureId) :
    store.write blocked id =
      store.replace (bif blocked then store.ids.insert id else store.ids.erase id) := by
  cases blocked with
  | true => exact add_eq ..
  | false => exact remove_eq ..

/-- What a write that succeeds leaves in the store. -/
theorem mem_write {store : Store} {blocked : Bool} {id : FeatureId}
    (written : (store.write blocked id).1 = .ok ()) (v : FeatureId) :
    v ∈ (store.write blocked id).2.ids ↔ if v = id then blocked = true else v ∈ store.ids := by
  rw [write_eq] at written ⊢
  rw [ids_replace, written, Except.isOk, Except.toBool, cond_true]
  cases blocked <;> by_cases same : v = id <;> simp [same]

end Store

namespace Session

variable {s t : Session} {n : Network} {store : Store} {blocked : Bool} {v : FeatureId}
  {done vertices : List FeatureId} {error : SessionError}

/-- Blocks a vertex, or unblocks it. -/
def switch : Bool → FeatureId → Session → Except SessionError Unit × Session
  | true => block
  | false => unblock

/-- The error about a vertex that is blocked, or unblocked, as it is. -/
def idleError : Bool → FeatureId → NetworkError
  | true => .alreadyBlocked
  | false => .notBlocked

/-- Why a vertex is refused, if it is, when those before it in the list have been worked off: the network
lacks it, it is as it should become, before or since, or the store cannot be written once more. -/
def refusal? (n : Network) (store : Store) (blocked : Bool) (done : List FeatureId) (v : FeatureId) :
    Option SessionError :=
  if n.containsVertex v = false then some (.network (.vertexNotFound v))
  else if n.isBlocked v = blocked ∨ v ∈ done then some (.network (idleError blocked v))
  else match ((store.writeEach blocked done).write blocked v).1 with
    | .error error => some (.persistence error)
    | .ok () => none

/-- None of a list of vertices is refused when its turn comes. -/
def Passes (n : Network) (store : Store) (blocked : Bool) (vertices : List FeatureId) : Prop :=
  ∀ done v rest, vertices = done ++ v :: rest → refusal? n store blocked done v = none

/-- The session after some vertices have been blocked, or unblocked: so they are in the network and in the
store, where nothing else has changed. -/
structure Worked (s : Session) (n : Network) (blocked : Bool) (done : List FeatureId) (t : Session) :
    Prop where
  config : t.config = s.config
  network : ∃ m, t.network = some m ∧ m.edges = n.edges ∧
    (∀ v, m.containsVertex v = n.containsVertex v ∧ m.outgoing v = n.outgoing v) ∧
    ∀ v, m.isBlocked v = true ↔ Amended blocked (fun v => n.isBlocked v = true) done v
  stored : ∀ v, v ∈ t.store.ids ↔ Amended blocked (· ∈ s.store.ids) done v

theorem refusal?_eq_none : refusal? n store blocked done v = none ↔
    n.containsVertex v = true ∧ n.isBlocked v = !blocked ∧ v ∉ done ∧
      ((store.writeEach blocked done).write blocked v).1 = .ok () := by
  unfold refusal?
  rw [Bool.eq_not]
  by_cases known : n.containsVertex v = true
  · by_cases idle : n.isBlocked v = blocked ∨ v ∈ done
    · simp only [known, if_pos idle, Bool.true_eq_false, if_false, reduceCtorEq, true_and, false_iff]
      exact fun both => idle.elim both.1 both.2.1
    · obtain ⟨free, new⟩ := not_or.mp idle
      rcases ((store.writeEach blocked done).write blocked v).1 with error | written <;>
        simp [known, free, new]
  · simp [known]

/-- The vertices worked off before are as good as ones that were so from the start. -/
theorem refusal?_cons (known : n.containsVertex v = true) (w : FeatureId) :
    refusal? n store blocked (v :: done) w =
      refusal? (n.setBlocked v blocked) (store.write blocked v).2 blocked done w := by
  have idle : (n.isBlocked w = blocked ∨ w ∈ v :: done) ↔
      ((n.setBlocked v blocked).isBlocked w = blocked ∨ w ∈ done) := by
    rw [Network.isBlocked_setBlocked known, List.mem_cons]
    by_cases same : w = v <;> simp [same]
  unfold refusal? Store.writeEach
  rw [Network.containsVertex_setBlocked, List.foldl_cons]
  simp only [idle]

theorem passes_nil : Passes n store blocked [] := by
  intro done v rest split
  cases done <;> cases split

theorem passes_cons (known : n.containsVertex v = true) :
    Passes n store blocked (v :: done) ↔ refusal? n store blocked [] v = none ∧
      Passes (n.setBlocked v blocked) (store.write blocked v).2 blocked done := by
  constructor
  · intro passes
    refine ⟨passes [] v done rfl, fun before w rest split => ?_⟩
    rw [← refusal?_cons known]
    exact passes (v :: before) w rest (congrArg (v :: ·) split)
  · rintro ⟨first, others⟩ before w rest split
    cases before with
    | nil =>
      cases split
      exact first
    | cons u before =>
      obtain ⟨rfl, later⟩ := List.cons.inj split
      rw [refusal?_cons known]
      exact others before w rest later

/-- No element is repeated if none stands among those before it. -/
theorem nodup_of_splits {α : Type} {l : List α}
    (new : ∀ before a rest, l = before ++ a :: rest → a ∉ before) : l.Nodup := by
  induction l with
  | nil => exact .nil
  | cons a l ih =>
    refine List.nodup_cons.mpr ⟨fun again => ?_, ih fun before b rest split later => ?_⟩
    · obtain ⟨before, rest, split⟩ := List.append_of_mem again
      exact new (a :: before) a rest (congrArg (a :: ·) split) (List.mem_cons_self ..)
    · exact new (a :: before) b rest (congrArg (a :: ·) split) (List.mem_cons_of_mem _ later)

/-- What it takes for a whole list to pass. -/
theorem passes_iff : Passes n store blocked vertices ↔
    vertices.Nodup ∧ (∀ v ∈ vertices, n.containsVertex v = true ∧ n.isBlocked v = !blocked) ∧
      ∀ done v rest, vertices = done ++ v :: rest →
        ((store.writeEach blocked done).write blocked v).1 = .ok () := by
  constructor
  · intro passes
    have each (done v rest) (split : vertices = done ++ v :: rest) :=
      refusal?_eq_none.mp (passes done v rest split)
    refine ⟨nodup_of_splits fun done v rest split => (each done v rest split).2.2.1, fun v listed => ?_,
      fun done v rest split => (each done v rest split).2.2.2⟩
    obtain ⟨done, rest, split⟩ := List.append_of_mem listed
    exact ⟨(each done v rest split).1, (each done v rest split).2.1⟩
  · rintro ⟨distinct, free, writes⟩ done v rest split
    have listed : v ∈ vertices := split ▸ List.mem_append_right _ (List.mem_cons_self ..)
    have new : v ∉ done := by
      rw [split] at distinct
      exact fun before => List.disjoint_of_nodup_append distinct before (List.mem_cons_self ..)
    exact refusal?_eq_none.mpr ⟨(free v listed).1, (free v listed).2, new, writes done v rest split⟩

/-- Blocking and unblocking go the same way. -/
theorem switch_eq (prepared : s.network = some n) (blocked : Bool) (v : FeatureId) :
    s.switch blocked v =
      s.attempt
        (if n.containsVertex v = false then .error (.vertexNotFound v)
          else if n.isBlocked v = blocked then .error (idleError blocked v) else .ok ())
        (bif blocked then s.store.ids.insert v else s.store.ids.erase v) (n.setBlocked v blocked) := by
  cases blocked with
  | true => exact (block_eq prepared v).trans (by rw [Network.checkBlock_eq]; rfl)
  | false => exact (unblock_eq prepared v).trans (by rw [Network.checkUnblock_eq]; rfl)

/-- One vertex is worked off as its refusal tells: with its error nothing moves, and with none it is switched
in the network and in the store. -/
theorem switch_cases (prepared : s.network = some n) (blocked : Bool) (v : FeatureId) :
    (∃ error, refusal? n s.store blocked [] v = some error ∧ (s.switch blocked v).1 = .error error ∧
        s.Unmoved (s.switch blocked v).2) ∨
      refusal? n s.store blocked [] v = none ∧ s.switch blocked v =
        (.ok (), { s with store := (s.store.write blocked v).2, network := some (n.setBlocked v blocked) }) := by
  have stored := s.store.ids_replace (bif blocked then s.store.ids.insert v else s.store.ids.erase v)
  rw [switch_eq prepared]
  unfold attempt refusal? Store.writeEach
  rw [List.foldl_nil, Store.write_eq]
  by_cases unknown : n.containsVertex v = false
  · simp only [if_pos unknown]
    exact .inl ⟨_, rfl, rfl, s.unmoved_refl⟩
  · by_cases idle : n.isBlocked v = blocked
    · simp only [if_neg unknown, idle, true_or, if_true]
      exact .inl ⟨_, rfl, rfl, s.unmoved_refl⟩
    · simp only [if_neg unknown, idle, List.not_mem_nil, or_false, if_false]
      rcases replaced : s.store.replace (bif blocked then s.store.ids.insert v else s.store.ids.erase v) with
        ⟨error | _, store⟩
      · rw [replaced] at stored
        exact .inl ⟨_, rfl, rfl, rfl, rfl, stored⟩
      · exact .inr ⟨rfl, rfl⟩

theorem Worked.start (network : s.network = some n) (unmoved : s.Unmoved t) : s.Worked n blocked [] t where
  config := unmoved.config
  network := ⟨n, unmoved.network.trans network, rfl, fun _ => ⟨rfl, rfl⟩, fun _ => by rw [amended_nil]⟩
  stored v := by rw [unmoved.ids, amended_nil]

/-- What follows on the first vertex is worked off with it. -/
theorem Worked.cons (known : n.containsVertex v = true) (written : (s.store.write blocked v).1 = .ok ())
    (worked : Worked { s with store := (s.store.write blocked v).2, network := some (n.setBlocked v blocked) }
      (n.setBlocked v blocked) blocked done t) : s.Worked n blocked (v :: done) t where
  config := worked.config
  network := by
    obtain ⟨m, prepared, edges, same, isBlocked⟩ := worked.network
    refine ⟨m, prepared, edges, fun w => ?_, fun w => ?_⟩
    · obtain ⟨contains, outgoing⟩ := same w
      exact ⟨contains.trans (Network.containsVertex_setBlocked ..),
        outgoing.trans (Network.outgoing_setBlocked ..)⟩
    · rw [isBlocked]
      refine amended_cons ?_
      rw [Network.isBlocked_setBlocked known]
      split <;> rfl
  stored w := (worked.stored w).trans (amended_cons (Store.mem_write written w))

/-- All that becomes of a list: it passes and is worked off, or it is worked off up to the first vertex that is
refused, and fails with that vertex's error. -/
theorem forEach_switch (prepared : s.network = some n) (blocked : Bool) (vertices : List FeatureId) :
    (Passes n s.store blocked vertices ∧ (forEach (switch blocked) vertices s).1 = .ok () ∧
        s.Worked n blocked vertices (forEach (switch blocked) vertices s).2) ∨
      ∃ done v rest error, vertices = done ++ v :: rest ∧ Passes n s.store blocked done ∧
        refusal? n s.store blocked done v = some error ∧
        (forEach (switch blocked) vertices s).1 = .error error ∧
        s.Worked n blocked done (forEach (switch blocked) vertices s).2 := by
  induction vertices generalizing s n with
  | nil => exact .inl ⟨passes_nil, rfl, .start prepared s.unmoved_refl⟩
  | cons v rest ih =>
    unfold forEach
    rcases switch_cases prepared blocked v with ⟨error, refused, failed, unmoved⟩ | ⟨free, switched⟩
    · refine .inr ⟨[], v, rest, error, rfl, passes_nil, refused, ?_⟩
      generalize s.switch blocked v = outcome at failed unmoved ⊢
      obtain ⟨result, u⟩ := outcome
      cases failed
      exact ⟨rfl, .start prepared unmoved⟩
    · obtain ⟨known, _, _, written⟩ := refusal?_eq_none.mp free
      rw [switched]
      dsimp only
      rcases ih (s := { s with store := (s.store.write blocked v).2, network := some (n.setBlocked v blocked) })
        rfl with ⟨passes, result, worked⟩ | ⟨done, w, others, error, split, passes, refused, result, worked⟩
      · exact .inl ⟨(passes_cons known).mpr ⟨free, passes⟩, result, .cons known written worked⟩
      · exact .inr ⟨v :: done, w, others, error, congrArg (v :: ·) split,
          (passes_cons known).mpr ⟨free, passes⟩, (refusal?_cons known w).trans refused, result,
          .cons known written worked⟩

/-- What a request with a list of vertices answers, and the session it leaves: all is done, or all up to the
first vertex that is refused. -/
structure WorksOff (s : Session) (n : Network) (blocked : Bool) (vertices : List FeatureId)
    (outcome : Except SessionError Response × Session) : Prop where
  succeeds : (∃ response, outcome.1 = .ok response) ↔
    vertices.Nodup ∧ (∀ v ∈ vertices, n.containsVertex v = true ∧ n.isBlocked v = !blocked) ∧
      ∀ done v rest, vertices = done ++ v :: rest →
        ((s.store.writeEach blocked done).write blocked v).1 = .ok ()
  answers : ∀ response, outcome.1 = .ok response →
    (∃ listed, response = .blocked listed ∧ listed.Pairwise (· < ·) ∧
      ∀ v, v ∈ listed ↔ Amended blocked (· ∈ n.blockedVertices) vertices v) ∧
    s.Worked n blocked vertices outcome.2
  fails : ∀ error, outcome.1 = .error error → ∃ done v rest, vertices = done ++ v :: rest ∧
    Passes n s.store blocked done ∧ refusal? n s.store blocked done v = some error ∧
    s.Worked n blocked done outcome.2

theorem worksOff_forEach (prepared : s.network = some n) (blocked : Bool) (vertices : List FeatureId) :
    s.WorksOff n blocked vertices (blockedAfter (forEach (switch blocked) vertices s)) := by
  rcases forEach_switch prepared blocked vertices with ⟨passes, result, worked⟩ |
    ⟨done, v, rest, error, split, passes, refused, result, worked⟩
  · generalize forEach (switch blocked) vertices s = outcome at result worked ⊢
    obtain ⟨_, t⟩ := outcome
    cases result
    obtain ⟨m, network, _, _, isBlocked⟩ := worked.network
    have answer : (blockedAfter (.ok (), t)).1 = .ok (.blocked m.blockedVertices) := by
      change t.prepared.map _ = _
      rw [Session.prepared, network]
      rfl
    refine ⟨iff_of_true ⟨_, answer⟩ (passes_iff.mp passes), fun response answered => ?_,
      fun error failed => ?_⟩
    · rw [answer] at answered
      cases answered
      refine ⟨⟨_, rfl, m.blockedVertices_ascending, fun v => ?_⟩, worked⟩
      simp only [Network.mem_blockedVertices, isBlocked]
    · rw [answer] at failed
      cases failed
  · generalize forEach (switch blocked) vertices s = outcome at result worked ⊢
    obtain ⟨_, t⟩ := outcome
    cases result
    refine ⟨iff_of_false ?_ fun required => ?_, fun response answered => ?_, fun error' failed => ?_⟩
    · rintro ⟨_, answered⟩
      cases answered
    · rw [passes_iff.mpr required done v rest split] at refused
      cases refused
    · cases answered
    · cases failed
      exact ⟨done, v, rest, split, passes, refused, worked⟩

/-- Vertices are blocked, or unblocked, one after another. All succeed if they are distinct vertices of the
network, none of them is so already, and every write to the store succeeds; and otherwise those before the
first that is refused are done, in the network and in the store, and no others. -/
theorem execute_listed (prepared : s.network = some n) (vertices : List FeatureId) :
    s.WorksOff n true vertices (s.execute (.block vertices)) ∧
      s.WorksOff n false vertices (s.execute (.unblock vertices)) :=
  ⟨worksOff_forEach prepared true vertices, worksOff_forEach prepared false vertices⟩

/-- A session with vertices 1, 2 and 3, the last one blocked, and a file that a disk lets be replaced once and
not again. -/
def halting : Session :=
  (start (.file { location := .ofText "blocked.json", ids := .ofList [3], disk :=
      { Disk.empty.put ["blocked.json".toList] "[3]" with
        mishaps := [.nothing, .nothing, .nothing, .refused .accessDenied] } }) .standard).after
    (.prepare [.bidirectional 1 2 12 (.ofInt 1), .bidirectional 2 3 23 (.ofInt 1)])

/-- Of two vertices to block the first is blocked and stored when the second cannot be stored. One vertex to
unblock is unblocked, and so it is if it is listed once more, which is an error. -/
theorem execute_listed_halting :
    ∃ n, halting.network = some n ∧ halting.WorksOff n true [1, 2] (halting.execute (.block [1, 2])) ∧
      (halting.execute (.block [1, 2])).1 = .error (.persistence (.io .accessDenied "blocked.json")) ∧
      (halting.execute (.block [1, 2])).2.store.ids.toList = [1, 3] ∧
      halting.WorksOff n false [3] (halting.execute (.unblock [3])) ∧
      (halting.execute (.unblock [3])).1 = .ok (.blocked []) ∧
      (halting.execute (.unblock [3, 3])).1 = .error (.network (.notBlocked 3)) ∧
      (halting.execute (.unblock [3, 3])).2.store.ids.toList = [] := by
  obtain ⟨n, prepared⟩ : ∃ n, halting.network = some n := Option.isSome_iff_exists.mp (by decide +kernel)
  exact ⟨n, prepared, (execute_listed prepared [1, 2]).1, by decide +kernel, by decide +kernel,
    (execute_listed prepared [3]).2, by decide +kernel, by decide +kernel, by decide +kernel⟩

end Session

end FeatureNet
