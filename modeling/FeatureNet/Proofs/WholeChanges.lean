import FeatureNet.Proofs.TemporaryFiles
import FeatureNet.Proofs.WrittenIds

namespace FeatureNet

namespace Location

/-- The parts of a location that lead anywhere. -/
def solidParts (l : Location) : List (List Char) := l.parts.filter fun part => !isIdle part

/-- Where a location has a name for a file, the temporary location has another one. -/
theorem temporary_solidParts_ne {l : Location} (named : l.lastName?.isSome = true) :
    l.temporary.solidParts ≠ l.solidParts := by
  obtain ⟨⟨name, before⟩, named⟩ := Option.isSome_iff_exists.mp named
  have cut : l.parts.reverse.dropWhile isIdle = name :: before ∧ name ≠ ['.', '.'] := by
    unfold lastName? at named
    split at named
    · cases named
    · cases named
    · next notUp shape =>
      cases named
      exact ⟨shape, notUp⟩
  have solid : isIdle name = false := by
    have head := l.parts.reverse.head?_dropWhile_not isIdle
    rwa [cut.1] at head
  have own : l.solidParts = (before.filter fun part => !isIdle part).reverse ++ [name] := by
    have idle := List.takeWhile_append_dropWhile (p := isIdle) (l := l.parts.reverse)
    have parts := congrArg List.reverse idle
    rw [cut.1, List.reverse_reverse] at parts
    have none : (l.parts.reverse.takeWhile isIdle).filter (fun part => !isIdle part) = [] :=
      List.filter_eq_nil_iff.mpr fun part member => by simp [List.mem_takeWhile_imp member]
    rw [solidParts, ← parts, List.filter_reverse, List.filter_append, none, List.nil_append,
      List.filter_cons_of_pos (by simp [solid]), List.reverse_cons]
  have other (last : List Char) (kept : isIdle last = false) (apart : last ≠ name) :
      solidParts { l with parts := (last :: before).reverse } ≠ l.solidParts := by
    rw [own, solidParts, List.filter_reverse, List.filter_cons_of_pos (by simp [kept]), List.reverse_cons]
    exact fun same => apart (List.singleton_inj.mp (List.append_cancel_left same))
  unfold temporary
  rw [named]
  dsimp only
  split
  · exact other _ (by decide) cut.2.symm
  · refine other _ ?_ (stem_append_ne name)
    have long : temporaryExtension.length = 9 := rfl
    rw [isIdle, Bool.or_eq_false_iff, decide_eq_false_iff_not, decide_eq_false_iff_not]
    constructor <;> intro short <;> simpa [long] using congrArg List.length short

end Location

/-- One change of the ids that a store holds. -/
inductive Change
  | add (id : FeatureId)
  | remove (id : FeatureId)
  | clear

/-- The ids after a change. -/
def Change.result (ids : IdSet) : Change → IdSet
  | add id => ids.insert id
  | remove id => ids.erase id
  | clear => .empty

namespace FileStore

open Disk

variable {s : FileStore} {d : Disk} {l : Location} {ids : IdSet}

def change (s : FileStore) : Change → Except StoreError Unit × FileStore
  | .add id => s.add id
  | .remove id => s.remove id
  | .clear => s.clear

theorem change_eq (s : FileStore) (c : Change) : s.change c = s.replace (c.result s.ids) := by
  cases c <;> rfl

/-- Ids that have been stored are those that the file would be opened with. -/
theorem reopened_replace (stored : (s.replace ids).1 = .ok ()) :
    (s.replace ids).2.location = s.location ∧ (s.replace ids).2.reopened = .ok ids := by
  rcases s.replace_cases ids with ⟨_, _, replaced, _⟩ | ⟨disk, replaced, _, found⟩
  · rw [replaced] at stored
    cases stored
  · rw [replaced]
    refine ⟨rfl, ?_⟩
    have present := Disk.isPresent_iff.mpr (.inl ⟨_, found⟩)
    simp [reopened, openAt, present, found, readIds?_idsText, Except.map]

/-- What is opened would be opened again with the same ids. -/
theorem openAt_ok (opened : openAt d l = .ok s) :
    s.location = l ∧ s.disk = d ∧ s.reopened = .ok s.ids := by
  have shape : s.location = l ∧ s.disk = d := by
    unfold openAt at opened
    split at opened
    · split at opened
      · cases opened
      · split at opened
        · cases opened
        · cases opened
          exact ⟨rfl, rfl⟩
    · cases opened
      exact ⟨rfl, rfl⟩
  refine ⟨shape.1, shape.2, ?_⟩
  rw [reopened, shape.1, shape.2, opened]
  rfl

/-- The disks that a crash can leave while a store replaces its ids: the disk as it was before, the disk with
a beginning of the new text, or with any other text, in the temporary file, and what is left when everything
has been done or whatever else has gone wrong on the way. -/
inductive Crashed (s : FileStore) (ids : IdSet) : Disk → Prop
  | before : Crashed s ids s.disk
  | writing {p : Place} (written : String) : s.disk.locate s.location.temporary = .ok p →
      s.disk.isFolder p = false → Crashed s ids (s.disk.put p written)
  | moving (mishaps : List Mishap) :
      Crashed s ids ({ s with disk := { s.disk with mishaps } }.replace ids).2.disk

/-- The stores that there can be as long as nobody else writes to their files: one that is opened, and what
it is after a change, done or failed. -/
inductive Reached : FileStore → Prop
  | opened {d : Disk} {l : Location} {s : FileStore} : d.Rooted → openAt d l = .ok s → Reached s
  | changed {s : FileStore} (c : Change) : Reached s → Reached (s.change c).2

/-- A change, done or failed, touches no other file than that of the store and its temporary file. -/
theorem sparesOthers_change (s : FileStore) (c : Change) :
    s.disk.SparesOthers s.location (s.change c).2.disk := by
  rw [change_eq]
  rcases s.replace_cases (c.result s.ids) with ⟨_, disk, replaced, spares⟩ | ⟨disk, replaced, spares, _⟩
  · rw [replaced]
    exact spares.others
  · rw [replaced]
    exact spares

/-- Either a change fails, and the file opens to what it opened to before and the store holds the ids that it
held, or it succeeds, and the file opens to the new ids and the store holds them. -/
theorem change_cases (rooted : s.disk.Rooted) (c : Change) :
    (∃ error, (s.change c).1 = .error error ∧ (s.change c).2.reopened = s.reopened ∧
        (s.change c).2.ids = s.ids) ∨
      (s.change c).1 = .ok () ∧ (s.change c).2.reopened = .ok (c.result s.ids) ∧
        (s.change c).2.ids = c.result s.ids := by
  rw [change_eq]
  have stored (done : (s.replace (c.result s.ids)).1 = .ok ()) := (reopened_replace done).2
  rcases s.replace_cases (c.result s.ids) with ⟨error, disk, replaced, spares⟩ | ⟨disk, replaced, _⟩
  · rw [replaced]
    exact .inl ⟨error, rfl, openAt_of_sparesBut rooted spares, rfl⟩
  · rw [replaced] at stored ⊢
    exact .inr ⟨rfl, stored rfl, rfl⟩

theorem Reached.steady (reached : s.Reached) : s.disk.Rooted ∧ s.reopened = .ok s.ids := by
  induction reached with
  | opened rooted opened =>
    obtain ⟨_, rfl, kept⟩ := openAt_ok opened
    exact ⟨rooted, kept⟩
  | @changed s c _ ih =>
    obtain ⟨rooted, kept⟩ := ih
    refine ⟨(sparesOthers_change s c).same.rooted rooted, ?_⟩
    rcases s.change_cases rooted c with ⟨_, _, before, held⟩ | ⟨_, after, held⟩
    · rw [before, held, kept]
    · rw [after, held]

/-- Wherever a crash comes, the file opens to the ids before the change or to those after it. -/
theorem Crashed.openAt (rooted : s.disk.Rooted) (crashed : s.Crashed ids d) :
    ((FileStore.openAt d s.location).map (·.ids) = s.reopened ∨
        (FileStore.openAt d s.location).map (·.ids) = .ok ids) ∧
      s.disk.SparesOthers s.location d := by
  cases crashed with
  | before => exact ⟨.inl rfl, ⟨⟨rfl, rfl⟩, fun _ => .inl rfl⟩⟩
  | @writing p written atTemporary plain =>
    have spares := (s.disk.sparesBut_mishaps s.location s.disk.mishaps).put atTemporary plain written
    exact ⟨.inl (openAt_of_sparesBut rooted spares), spares.others⟩
  | moving mishaps =>
    have other := s.disk.sparesBut_mishaps s.location mishaps
    have rooted' := other.same.rooted rooted
    generalize begun : { s with disk := { s.disk with mishaps } : FileStore } = t
    have place : t.location = s.location := begun ▸ rfl
    have started : t.disk = { s.disk with mishaps } := begun ▸ rfl
    rcases t.replace_cases ids with ⟨_, disk, replaced, spares⟩ | ⟨disk, replaced, spares, _⟩
    · rw [replaced]
      rw [place, started] at spares
      exact ⟨.inl ((openAt_of_sparesBut rooted' spares).trans (openAt_of_sparesBut rooted other)),
        spares.others.of_mishaps⟩
    · have stored (done : (t.replace ids).1 = .ok ()) := (reopened_replace done).2
      rw [replaced] at stored ⊢
      rw [place, started] at spares
      exact ⟨.inr (place ▸ stored rfl), spares.of_mishaps⟩

/-- Changes of a file store are done whole or not at all. If the file of a store opens to some ids, then after
a crash in the middle of a change it opens to these or to the new ones; after a change that fails it opens to
these, and the store itself loads what it loaded before; after one that succeeds both have the new ids. Nothing
but the file and its temporary file is made, changed or removed. As long as nobody else writes, the file opens
to the ids that the store holds. Wherever a location names a file, its temporary location names another one, and
the two never lead to the same file. -/
theorem change_whole (rooted : s.disk.Rooted) (c : Change) :
    (∀ d, s.Crashed (c.result s.ids) d →
        ((openAt d s.location).map (·.ids) = s.reopened ∨
          (openAt d s.location).map (·.ids) = .ok (c.result s.ids)) ∧
        s.disk.SparesOthers s.location d) ∧
      (∀ error, (s.change c).1 = .error error →
        (s.change c).2.reopened = s.reopened ∧ (s.change c).2.load = s.load) ∧
      ((s.change c).1 = .ok () →
        (s.change c).2.reopened = .ok (c.result s.ids) ∧
          (s.change c).2.load = .ok (c.result s.ids).toList) ∧
      s.disk.SparesOthers s.location (s.change c).2.disk ∧
      (s.Reached → s.reopened = .ok s.ids) ∧
      (∀ l : Location, l.lastName?.isSome = true → l.temporary.solidParts ≠ l.solidParts) ∧
      ∀ p q, s.disk.locate s.location.temporary = .ok p → s.disk.isFolder p = false →
        s.disk.locate s.location = .ok q → q ≠ p := by
  refine ⟨fun d crashed => crashed.openAt rooted, fun error failed => ?_, fun done => ?_,
    sparesOthers_change s c, fun reached => reached.steady.2, fun l => Location.temporary_solidParts_ne,
    fun p q => rooted.apart⟩
  · rcases s.change_cases rooted c with ⟨_, _, before, held⟩ | ⟨done, _⟩
    · exact ⟨before, by rw [load, held, load]⟩
    · rw [done] at failed
      cases failed
  · rcases s.change_cases rooted c with ⟨_, failed, _⟩ | ⟨_, after, held⟩
    · rw [done] at failed
      cases failed
    · exact ⟨after, by rw [load, held]⟩

/-- A file of an id that is listed twice, on a disk that is full after five more characters. -/
def crowded : FileStore where
  location := .ofText "blocked.json"
  ids := .ofList [3]
  disk := { Disk.empty.put ["blocked.json".toList] "[ 3,3]" with mishaps := [.brokenOff 5 .noSpace] }

/-- Adding an id fails with the beginning of the new text in the temporary file. Had there been room for all of
it, a crash before the move would leave one set or the other. -/
theorem change_whole_crowded :
    crowded.disk.Rooted ∧ crowded.Reached ∧
      (crowded.change (.add 2)).1 = .error (.io .noSpace "blocked.json.tmp") ∧
      (crowded.change (.add 2)).2.reopened = .ok (.ofList [3]) ∧
      (crowded.change (.add 2)).2.disk.text? ["blocked.json.tmp".toList] = some "[\n  2" ∧
      ((openAt (crowded.disk.put ["blocked.json.tmp".toList] "[\n  2,\n  3\n]") crowded.location).map (·.ids) =
          .ok (.ofList [3]) ∨
        (openAt (crowded.disk.put ["blocked.json.tmp".toList] "[\n  2,\n  3\n]") crowded.location).map (·.ids) =
          .ok (.ofList [2, 3])) := by
  have rooted : crowded.disk.Rooted := by decide +kernel
  have reached : crowded.Reached :=
    .opened (d := crowded.disk) (l := crowded.location) rooted (by decide +kernel)
  have failed : (crowded.change (.add 2)).1 = .error (.io .noSpace "blocked.json.tmp") := by decide +kernel
  have place : crowded.disk.locate crowded.location.temporary = .ok ["blocked.json.tmp".toList] := by
    decide +kernel
  obtain ⟨crash, failure, _, _, steady, _⟩ := change_whole rooted (.add 2)
  have kept : crowded.reopened = .ok (.ofList [3]) := steady reached
  have either := (crash _ (.writing "[\n  2,\n  3\n]" place (by decide +kernel))).1
  rw [kept] at either
  exact ⟨rooted, reached, failed, (failure _ failed).1.trans kept, by decide +kernel, either⟩

end FileStore

end FeatureNet
