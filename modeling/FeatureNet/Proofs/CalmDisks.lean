import FeatureNet.Proofs.FiledSessions

namespace FeatureNet

theorem Location.temporary_endsInSlash {l : Location} (named : l.endsInSlash = false) :
    l.temporary.endsInSlash = false := by
  unfold temporary
  split
  · exact named
  · next name before _ =>
    have last (part : List Char) (nonempty : part ≠ []) :
        endsInSlash { l with parts := (part :: before).reverse } = false := by
      simpa [endsInSlash] using nonempty
    dsimp only
    split
    · exact last _ (by simp)
    · exact last _ (by simp [temporaryExtension])

namespace Disk

variable {d e : Disk} {l : Location} {p q : Place} {text : String}

/-- Nothing goes wrong on the disk by itself, and there can be files at a location and at its temporary
location. -/
structure Calm (l : Location) (d : Disk) : Prop where
  mishaps : ∀ m ∈ d.mishaps, m = .nothing
  temporary : ∃ p, d.locate l.temporary = .ok p ∧ d.isFolder p = false
  own : ∃ q, d.locate l = .ok q ∧ d.isFolder q = false
  named : l.endsInSlash = false

theorem Calm.headD (calm : d.Calm l) : d.mishaps.headD .nothing = .nothing := by
  have each := calm.mishaps
  cases shape : d.mishaps with
  | nil => rfl
  | cons m rest =>
    rw [shape] at each
    exact each m (List.mem_cons_self ..)

/-- A disk stays calm while its folders stay. -/
theorem Calm.later (calm : d.Calm l) (same : d.SameFolders e) (fewer : e.mishaps = d.mishaps.drop 1) :
    e.Calm l where
  mishaps m member := calm.mishaps m (List.mem_of_mem_drop (fewer ▸ member))
  temporary := by
    obtain ⟨p, located, plain⟩ := calm.temporary
    exact ⟨p, same.locate located, same.isFolder p ▸ plain⟩
  own := by
    obtain ⟨q, located, plain⟩ := calm.own
    exact ⟨q, same.locate located, same.isFolder q ▸ plain⟩
  named := calm.named

theorem write_eq (well : d.mishaps.headD .nothing = .nothing) (located : d.locate l = .ok p)
    (plain : d.isFolder p = false) (named : l.endsInSlash = false) (text : String) :
    d.write l text = (.ok (), d.nextMishap.2.put p text) := by
  have located' : d.nextMishap.2.locate l = .ok p := (sameFolders_nextMishap d).locate located
  have plain' : d.nextMishap.2.isFolder p = false := plain
  unfold write
  rw [← Prod.mk.eta (p := d.nextMishap), show d.nextMishap.1 = .nothing from well]
  simp only [located', plain', named, Bool.or_self, Bool.false_eq_true, if_false]

theorem move_eq {source target : Location} (well : d.mishaps.headD .nothing = .nothing)
    (atSource : d.locate source = .ok p) (found : d.text? p = some text) (atTarget : d.locate target = .ok q)
    (plain : d.isFolder q = false) (named : target.endsInSlash = false) :
    d.move source target = (.ok (), (d.nextMishap.2.remove p).put q text) := by
  have atSource' : d.nextMishap.2.locate source = .ok p := (sameFolders_nextMishap d).locate atSource
  have atTarget' : d.nextMishap.2.locate target = .ok q := (sameFolders_nextMishap d).locate atTarget
  have found' : d.nextMishap.2.text? p = some text := found
  have plain' : d.nextMishap.2.isFolder q = false := plain
  unfold move
  rw [← Prod.mk.eta (p := d.nextMishap), show d.nextMishap.1 = .nothing from well]
  simp only [atSource', atTarget', found', plain', named, Bool.false_eq_true, if_false]

end Disk

/-- On a calm disk the ids are replaced. -/
theorem FileStore.replace_calm {s : FileStore} (calm : s.disk.Calm s.location) (ids : IdSet) :
    ∃ disk, s.replace ids = (.ok (), { s with ids, disk }) ∧ disk.Calm s.location := by
  obtain ⟨p, atTemporary, plain⟩ := calm.temporary
  have wrote := Disk.write_eq calm.headD atTemporary plain (Location.temporary_endsInSlash calm.named)
    (idsText ids)
  have written : (s.disk.nextMishap.2.put p (idsText ids)).Calm s.location := calm.later ⟨rfl, rfl⟩ rfl
  obtain ⟨q, atOwn, plain'⟩ := written.own
  have place : (s.disk.nextMishap.2.put p (idsText ids)).locate s.location.temporary = .ok p :=
    Disk.SameFolders.locate (d := s.disk) ⟨rfl, rfl⟩ atTemporary
  have found : (s.disk.nextMishap.2.put p (idsText ids)).text? p = some (idsText ids) := by
    rw [Disk.text?_put, if_pos rfl]
  have moved := Disk.move_eq written.headD place found atOwn plain' calm.named
  unfold replace
  rw [wrote]
  dsimp only
  rw [moved]
  exact ⟨_, rfl, written.later ⟨rfl, rfl⟩ rfl⟩

namespace Store

variable {s : Store}

/-- Nothing hinders the store: neither a switch nor the disk. -/
inductive Calm : Store → Prop
  | memory (ids : IdSet) : Calm (.memory ⟨ids, false, false⟩)
  | file {s : FileStore} : s.disk.Calm s.location → Calm (.file s)

theorem Calm.replace (calm : s.Calm) (ids : IdSet) :
    (s.replace ids).1 = .ok () ∧ (s.replace ids).2.Calm := by
  cases calm with
  | memory ids' => exact ⟨rfl, .memory ids⟩
  | @file s calm =>
    obtain ⟨disk, replaced, later⟩ := FileStore.replace_calm calm ids
    unfold Store.replace
    dsimp only
    rw [replaced]
    exact ⟨rfl, .file later⟩

theorem Calm.load (calm : s.Calm) : s.load = .ok s.ids.toList := by
  cases calm with
  | memory ids => rfl
  | file calm => rfl

end Store

namespace Session

variable {s : Session} {act : Session → Except SessionError Unit × Session}

theorem attempt_sound (calm : s.store.Calm) (checked : Except NetworkError Unit) (ids : IdSet) (n : Network) :
    storeFailed (s.attempt checked ids n).1 = false := by
  unfold attempt
  cases checked with
  | error error => rfl
  | ok done =>
    have stored := (calm.replace ids).1
    rcases replaced : s.store.replace ids with ⟨_ | _, store⟩
    · rw [replaced] at stored
      cases stored
    · rfl

theorem Attempts.sound (attempts : s.Attempts act) (calm : s.store.Calm) : storeFailed (act s).1 = false := by
  rcases attempts with refused | ⟨checked, ids, n, attempted⟩
  · rw [refused s s.alike_refl]
    rfl
  · rw [attempted s s.alike_refl]
    exact attempt_sound calm checked ids n

theorem forEach_sound {act : FeatureId → Session → Except SessionError Unit × Session}
    (attempts : ∀ (s : Session) (id : FeatureId), s.Attempts (act id)) (calm : s.store.Calm)
    (vertices : List FeatureId) : storeFailed (forEach act vertices s).1 = false := by
  induction vertices generalizing s with
  | nil => rfl
  | cons v rest ih =>
    have sound := (attempts s v).sound calm
    have later := (attempts s v).store (P := Store.Calm) (fun _ ids calm => (calm.replace ids).2) calm
    unfold forEach
    rcases done : act v s with ⟨_ | _, t⟩
    · rw [done] at sound
      exact sound
    · rw [done] at later
      exact ih later

theorem blockedAfter_sound {outcome : Except SessionError Unit × Session}
    (sound : storeFailed outcome.1 = false) : storeFailed (blockedAfter outcome).1 = false := by
  obtain ⟨_ | _, t⟩ := outcome
  · exact sound
  · show storeFailed (t.prepared.map _) = false
    unfold prepared
    cases t.network <;> rfl

theorem routing_sound (s : Session) (source target : FeatureId) (count : Nat) :
    storeFailed (s.routing source target count).1 = false := by
  unfold routing alternatives cheapestPath prepared
  by_cases single : count = 1
  · simp only [if_pos single]
    cases s.network <;> rfl
  · simp only [if_neg single]
    by_cases refused : count = 0 ∨ s.config.maxCount < count
    · rw [if_pos refused]
      rfl
    · rw [if_neg refused]
      cases s.network <;> rfl

/-- If nothing hinders the store, no request fails because of it, and nothing hinders it after that. -/
theorem execute_sound (calm : s.store.Calm) (request : Request) :
    storeFailed (s.execute request).1 = false ∧ (s.execute request).2.store.Calm := by
  refine ⟨?_, store_after (P := Store.Calm) (fun _ ids calm => (calm.replace ids).2) calm
    (.execute request)⟩
  cases request with
  | routing source target count =>
    have sound := s.routing_sound source target count
    show storeFailed ((s.routing source target count).1.map _) = false
    cases result : (s.routing source target count).1 with
    | ok routes => rfl
    | error error =>
      rw [result] at sound
      exact sound
  | distribution emitters =>
    show storeFailed ((s.prepared.map _).map _) = false
    unfold prepared
    cases s.network <;> rfl
  | block vertices => exact blockedAfter_sound (forEach_sound attempts_block calm vertices)
  | unblock vertices => exact blockedAfter_sound (forEach_sound attempts_unblock calm vertices)
  | unblockAll => exact blockedAfter_sound (s.attempts_unblockAll.sound calm)

end Session

end FeatureNet
