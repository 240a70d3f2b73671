import FeatureNet.Store
import Mathlib.Data.List.Induction
import Mathlib.Data.List.TakeWhile

namespace FeatureNet

namespace Disk

variable {d e : Disk} {p q : Place} {l : Location} {names : List (List Char)} {text : String}

/-- Every folder lies in a folder, and the program runs in one. -/
structure Rooted (d : Disk) : Prop where
  above : ∀ p ∈ d.folders, p.tail ∈ d.folders
  working : d.working ∈ d.folders

instance (d : Disk) : Decidable d.Rooted :=
  decidable_of_iff ((∀ p ∈ d.folders, p.tail ∈ d.folders) ∧ d.working ∈ d.folders)
    ⟨fun both => ⟨both.1, both.2⟩, fun rooted => ⟨rooted.above, rooted.working⟩⟩

theorem isFolder_iff : d.isFolder p = true ↔ p ∈ d.folders := List.contains_iff_mem

theorem Rooted.root (rooted : d.Rooted) : [] ∈ d.folders := by
  suffices general : ∀ p, p ∈ d.folders → [] ∈ d.folders from general _ rooted.working
  intro p
  induction p with
  | nil => exact id
  | cons name p ih => exact fun member => ih (rooted.above _ member)

theorem Rooted.startOf (rooted : d.Rooted) (l : Location) : d.startOf l ∈ d.folders := by
  unfold Disk.startOf
  split
  · exact rooted.root
  · exact rooted.working

/-- Two disks with the same folders, where the program runs in the same one. -/
structure SameFolders (d e : Disk) : Prop where
  folders : e.folders = d.folders
  working : e.working = d.working

namespace SameFolders

theorem symm (same : d.SameFolders e) : e.SameFolders d := ⟨same.folders.symm, same.working.symm⟩

theorem isFolder (same : d.SameFolders e) (p : Place) : e.isFolder p = d.isFolder p := by
  unfold Disk.isFolder
  rw [same.folders]

theorem rooted (same : d.SameFolders e) (rooted : d.Rooted) : e.Rooted where
  above := same.folders ▸ rooted.above
  working := same.folders ▸ same.working ▸ rooted.working

end SameFolders

theorem sameFolders_nextMishap (d : Disk) : d.SameFolders d.nextMishap.2 := ⟨rfl, rfl⟩

/-- Going from name to name, each into a folder. -/
def enterAll (d : Disk) (p : Place) (names : List (List Char)) : Except Cause Place :=
  names.foldlM d.enter p

theorem enter_eq_ok {name : List Char} :
    d.enter p name = .ok q ↔ step p name = .ok q ∧ d.isFolder q = true := by
  unfold enter
  cases step p name with
  | error cause => simp
  | ok r =>
    dsimp only
    cases folder : d.isFolder r with
    | false => simpa using fun same : r = q => same ▸ folder
    | true => simpa using fun same : r = q => same ▸ folder

theorem enterAll_cons_eq_ok {first : List Char} :
    d.enterAll p (first :: names) = .ok q ↔ ∃ r, d.enter p first = .ok r ∧ d.enterAll r names = .ok q := by
  rw [enterAll, List.foldlM_cons]
  cases d.enter p first <;> simp [bind, Except.bind, enterAll]

theorem follow_concat (d : Disk) (p : Place) (names : List (List Char)) (last : List Char) :
    d.follow p (names ++ [last]) = d.enterAll p names >>= fun q => step q last := by
  induction names generalizing p with
  | nil => rfl
  | cons first names ih =>
    have more : names ++ [last] ≠ [] := by simp
    rw [List.cons_append, follow, enterAll, List.foldlM_cons]
    · cases d.enter p first with
      | error cause => rfl
      | ok q => exact ih q
    · exact more

theorem follow_concat_eq_ok {last : List Char} :
    d.follow p (names ++ [last]) = .ok q ↔ ∃ r, d.enterAll p names = .ok r ∧ step r last = .ok q := by
  rw [follow_concat]
  cases d.enterAll p names <;> simp [bind, Except.bind]

theorem enterAll_folder (folder : p ∈ d.folders) (entered : d.enterAll p names = .ok q) :
    q ∈ d.folders := by
  induction names generalizing p with
  | nil =>
    cases entered
    exact folder
  | cons first names ih =>
    obtain ⟨r, once, onward⟩ := enterAll_cons_eq_ok.mp entered
    exact ih (isFolder_iff.mp (enter_eq_ok.mp once).2) onward

theorem SameFolders.enterAll (same : d.SameFolders e) (entered : d.enterAll p names = .ok q) :
    e.enterAll p names = .ok q := by
  induction names generalizing p with
  | nil => exact entered
  | cons first names ih =>
    obtain ⟨r, once, onward⟩ := enterAll_cons_eq_ok.mp entered
    refine enterAll_cons_eq_ok.mpr ⟨r, ?_, ih onward⟩
    rw [enter_eq_ok, same.isFolder]
    exact enter_eq_ok.mp once

/-- Where names lead from a place, if they lead anywhere, depends on the folders alone. -/
theorem SameFolders.follow (same : d.SameFolders e) (followed : d.follow p names = .ok q) :
    e.follow p names = .ok q := by
  cases names using List.reverseRecOn with
  | nil => exact followed
  | append_singleton names last =>
    obtain ⟨r, entered, stepped⟩ := follow_concat_eq_ok.mp followed
    exact follow_concat_eq_ok.mpr ⟨r, same.enterAll entered, stepped⟩

theorem locate_eq_ok : d.locate l = .ok p ↔ flaw? l = none ∧ d.follow (d.startOf l) l.names = .ok p := by
  unfold locate
  cases flaw? l <;> simp

theorem SameFolders.locate (same : d.SameFolders e) (located : d.locate l = .ok p) :
    e.locate l = .ok p := by
  obtain ⟨sound, followed⟩ := locate_eq_ok.mp located
  refine locate_eq_ok.mpr ⟨sound, ?_⟩
  have start : e.startOf l = d.startOf l := by
    unfold startOf
    rw [same.working]
  rw [start]
  exact same.follow followed

theorem read_eq_ok :
    d.read l = .ok text ↔ ∃ p, d.locate l = .ok p ∧ d.isFolder p = false ∧ d.text? p = some text ∧
      l.endsInSlash = false := by
  unfold read
  cases d.locate l with
  | error cause => simp
  | ok p =>
    cases folder : d.isFolder p with
    | true => simp [folder]
    | false =>
      cases found : d.text? p with
      | none => simp [folder, found]
      | some text' => cases l.endsInSlash <;> simp [folder, found]

/-- Whatever hinders names from leading anywhere, it is not that they lead to a folder. -/
theorem locate_ne_isFolder (d : Disk) (l : Location) : d.locate l ≠ .error .isFolder := by
  have stepped (p : Place) (name : List Char) : step p name ≠ .error .isFolder := by
    unfold step
    split_ifs <;> simp
  have entered (p : Place) (name : List Char) : d.enter p name ≠ .error .isFolder := by
    unfold enter
    split
    · next cause failed => exact fun same => stepped p name (same ▸ failed)
    · split_ifs <;> simp
  have followed (p : Place) (names : List (List Char)) : d.follow p names ≠ .error .isFolder := by
    fun_induction Disk.follow d p names with
    | case1 => simp
    | case2 p name => exact stepped p name
    | case3 p name names _ cause failed => exact fun same => entered p name (same ▸ failed)
    | case4 p name names _ q _ ih => exact ih
  unfold locate
  split
  · next cause flawed =>
    unfold flaw? at flawed
    split_ifs at flawed <;> cases flawed <;> simp
  · exact followed (d.startOf l) l.names

theorem read_eq_isFolder :
    d.read l = .error .isFolder ↔ ∃ p, d.locate l = .ok p ∧ d.isFolder p = true := by
  have hindered := d.locate_ne_isFolder l
  unfold read
  cases located : d.locate l with
  | error cause =>
    rw [located] at hindered
    simpa using hindered
  | ok p =>
    cases folder : d.isFolder p with
    | true => simp [folder]
    | false =>
      cases found : d.text? p with
      | none => simp [folder, found]
      | some text => cases l.endsInSlash <;> simp [folder, found]

end Disk

namespace Location

/-- A name that stands for itself, and neither for a folder nor for the one above it. -/
def IsProper (name : List Char) : Prop := name ≠ ['.'] ∧ name ≠ ['.', '.']

theorem stem_append_ne (name : List Char) : stem name ++ temporaryExtension ≠ name := by
  intro same
  unfold stem at same
  split at same
  · next dot first rest cut =>
    -- Read backwards, the name is what follows its last dot, that dot, and the stem.
    have parts := List.takeWhile_append_dropWhile (p := (· ≠ '.')) (l := name.reverse)
    have whole := congrArg List.reverse same
    rw [cut] at parts
    rw [List.reverse_append, List.reverse_reverse, ← parts, List.append_cons _ dot] at whole
    have extension : ['p', 'm', 't', '.', 'n', 'o', 's', 'j'] ++ ['.'] = _ ++ [dot] :=
      List.append_cancel_right whole
    obtain ⟨ending, _⟩ := List.append_inj' extension rfl
    have dotted : '.' ∈ name.reverse.takeWhile (· ≠ '.') := by
      rw [← ending]
      decide
    simpa using List.mem_takeWhile_imp dotted
  · have length := congrArg List.length same
    simp [temporaryExtension] at length

variable {l : Location} {names : List (List Char)} {last : List Char}

/-- The name of the file is the last one on the way, if that is proper. -/
theorem lastName?_eq (shape : l.names = names ++ [last]) (proper : IsProper last) :
    ∃ before, l.lastName? = some (last, before) ∧ before.reverse.filter (· ≠ []) = names := by
  have general (parts : List (List Char)) {rest : List (List Char)}
      (shape : parts.filter (· ≠ []) = last :: rest) :
      ∃ before, parts.dropWhile isIdle = last :: before ∧ before.filter (· ≠ []) = rest := by
    induction parts with
    | nil => cases shape
    | cons part parts ih =>
      by_cases empty : part = []
      · subst empty
        exact ih shape
      · rw [List.filter_cons_of_pos (by simpa using empty)] at shape
        obtain ⟨rfl, rest⟩ := List.cons.inj shape
        have kept : isIdle part = false := by simp [isIdle, empty, proper.1]
        exact ⟨parts, by rw [List.dropWhile_cons_of_neg (by simp [kept])], rest⟩
  have backwards : l.parts.reverse.filter (· ≠ []) = last :: names.reverse := by
    have reversed := congrArg List.reverse shape
    rwa [Location.names, ← List.filter_reverse, List.reverse_concat] at reversed
  obtain ⟨before, cut, rest⟩ := general _ backwards
  refine ⟨before, ?_, by rw [List.filter_reverse, rest, List.reverse_reverse]⟩
  unfold lastName?
  rw [cut]
  split
  · next none => cases none
  · next up => exact absurd (List.cons.inj up).1 proper.2
  · next other => cases other; rfl

theorem temporary_absolute (l : Location) : l.temporary.absolute = l.absolute := by
  unfold temporary
  split <;> rfl

/-- The temporary location differs in its last name. -/
theorem temporary_names (shape : l.names = names ++ [last]) (proper : IsProper last) :
    ∃ other, l.temporary.names = names ++ [other] ∧ other ≠ last := by
  obtain ⟨before, found, rest⟩ := lastName?_eq shape proper
  unfold temporary
  rw [found]
  dsimp only
  split
  · exact ⟨['.', '.'], by simp [Location.names, ← rest], proper.2.symm⟩
  · refine ⟨stem last ++ temporaryExtension, ?_, stem_append_ne last⟩
    simp [Location.names, ← rest, temporaryExtension]

end Location

namespace Disk

open Location

variable {d e : Disk} {p q : Place} {l : Location}

theorem step_cases {name : List Char} (stepped : step p name = .ok q) :
    name = ['.'] ∧ q = p ∨ name = ['.', '.'] ∧ q = p.tail ∨ IsProper name ∧ q = name :: p := by
  unfold step at stepped
  split_ifs at stepped with here up long
  · exact .inl ⟨here, (Except.ok.inj stepped).symm⟩
  · exact .inr (.inl ⟨up, (Except.ok.inj stepped).symm⟩)
  · exact .inr (.inr ⟨⟨here, up⟩, (Except.ok.inj stepped).symm⟩)

/-- A store's file is not where its temporary file is, unless a folder is there. -/
theorem Rooted.apart (rooted : d.Rooted) (atTemporary : d.locate l.temporary = .ok p)
    (plain : d.isFolder p = false) (atOwn : d.locate l = .ok q) : q ≠ p := by
  rintro rfl
  have notFolder : q ∉ d.folders := fun member => by
    rw [isFolder_iff.mpr member] at plain
    cases plain
  obtain ⟨_, followed⟩ := locate_eq_ok.mp atOwn
  obtain ⟨_, followed'⟩ := locate_eq_ok.mp atTemporary
  have start : d.startOf l.temporary = d.startOf l := by
    unfold Disk.startOf
    rw [temporary_absolute]
  have begins := rooted.startOf l
  cases shape : l.names using List.reverseRecOn with
  | nil =>
    rw [shape] at followed
    cases followed
    exact notFolder begins
  | append_singleton names last =>
    rw [shape] at followed
    obtain ⟨r, entered, stepped⟩ := follow_concat_eq_ok.mp followed
    have folder := enterAll_folder begins entered
    rcases step_cases stepped with ⟨_, rfl⟩ | ⟨_, rfl⟩ | ⟨proper, rfl⟩
    · exact notFolder folder
    · exact notFolder (rooted.above _ folder)
    · obtain ⟨other, shape', apart⟩ := temporary_names shape proper
      rw [shape', start] at followed'
      obtain ⟨r', entered', stepped'⟩ := follow_concat_eq_ok.mp followed'
      rw [entered] at entered'
      cases entered'
      rcases step_cases stepped' with ⟨_, same⟩ | ⟨_, same⟩ | ⟨_, same⟩
      · exact List.cons_ne_self _ _ same
      · have length := congrArg List.length same
        rw [List.length_cons, List.length_tail] at length
        omega
      · exact apart (List.cons.inj same).1.symm

/-- All that writing a file does: it is refused, or it leaves some text in a file, the whole of it if it
succeeds. -/
theorem write_cases (d : Disk) (l : Location) (text : String) :
    (∃ cause, d.write l text = (.error cause, d.nextMishap.2)) ∨
      ∃ p written, d.locate l = .ok p ∧ d.isFolder p = false ∧
        (d.write l text).2 = d.nextMishap.2.put p written ∧
        ((d.write l text).1 = .ok () → written = text) := by
  have same := d.sameFolders_nextMishap
  unfold write
  generalize d.nextMishap = next at same ⊢
  obtain ⟨mishap, e⟩ := next
  dsimp only at same ⊢
  cases located : e.locate l with
  | error cause => exact .inl ⟨cause, rfl⟩
  | ok p =>
    cases folder : l.endsInSlash || e.isFolder p with
    | true => exact .inl ⟨.isFolder, by simp [folder]⟩
    | false =>
      have plain : d.isFolder p = false := same.isFolder p ▸ (Bool.or_eq_false_iff.mp folder).2
      have place := same.symm.locate located
      cases mishap with
      | nothing => exact .inr ⟨p, text, place, plain, by simp [folder], fun _ => rfl⟩
      | refused cause => exact .inl ⟨cause, by simp [folder]⟩
      | brokenOff written cause =>
        refine .inr ⟨p, String.ofList (text.toList.take written), place, plain, by simp [folder], ?_⟩
        simp [folder]

/-- All that moving a file does: it is refused, or the file takes the place of the one it is moved to. -/
theorem move_cases (d : Disk) (source target : Location) :
    (∃ cause, d.move source target = (.error cause, d.nextMishap.2)) ∨
      ∃ p q text, d.locate source = .ok p ∧ d.locate target = .ok q ∧ d.text? p = some text ∧
        target.endsInSlash = false ∧ d.isFolder q = false ∧
        d.move source target = (.ok (), (d.nextMishap.2.remove p).put q text) := by
  have same := d.sameFolders_nextMishap
  have texts (p : Place) : d.nextMishap.2.text? p = d.text? p := rfl
  unfold move
  generalize d.nextMishap = next at same texts ⊢
  obtain ⟨mishap, e⟩ := next
  dsimp only at same texts ⊢
  cases atSource : e.locate source with
  | error cause => exact .inl ⟨cause, rfl⟩
  | ok p =>
    cases atTarget : e.locate target with
    | error cause => exact .inl ⟨cause, rfl⟩
    | ok q =>
      cases found : e.text? p with
      | none => exact .inl ⟨.notFound, by simp [found]⟩
      | some text =>
        cases slash : target.endsInSlash with
        | true => exact .inl ⟨.notFolder, by simp [found]⟩
        | false =>
          cases folder : e.isFolder q with
          | true => exact .inl ⟨.isFolder, by simp [found, folder]⟩
          | false =>
            cases mishap with
            | nothing =>
              refine .inr ⟨p, q, text, same.symm.locate atSource, same.symm.locate atTarget,
                texts p ▸ found, rfl, same.isFolder q ▸ folder, ?_⟩
              simp [found, folder]
            | refused cause => exact .inl ⟨cause, by simp [found, folder]⟩
            | brokenOff written cause => exact .inl ⟨cause, by simp [found, folder]⟩

theorem isPresent_iff :
    d.isPresent l = true ↔ (∃ text, d.read l = .ok text) ∨ d.read l = .error .isFolder := by
  unfold isPresent
  cases d.read l with
  | ok text => simp
  | error cause => cases cause <;> simp

/-- No file differs but the one at a location's temporary location. -/
structure SparesBut (d : Disk) (l : Location) (e : Disk) : Prop where
  same : d.SameFolders e
  texts : ∀ q, e.text? q = d.text? q ∨ d.locate l.temporary = .ok q ∧ d.isFolder q = false

/-- No file differs but the one at a location and the one at its temporary location. -/
structure SparesOthers (d : Disk) (l : Location) (e : Disk) : Prop where
  same : d.SameFolders e
  texts : ∀ q, e.text? q = d.text? q ∨ d.locate l.temporary = .ok q ∨ d.locate l = .ok q

theorem SparesBut.others (spares : d.SparesBut l e) : d.SparesOthers l e :=
  ⟨spares.same, fun q => (spares.texts q).imp_right fun temporary => .inl temporary.1⟩

theorem sparesBut_mishaps (d : Disk) (l : Location) (mishaps : List Mishap) :
    d.SparesBut l { d with mishaps } := ⟨⟨rfl, rfl⟩, fun _ => .inl rfl⟩

/-- Anything may be put into the temporary file. -/
theorem SparesBut.put (spares : d.SparesBut l e) (atTemporary : d.locate l.temporary = .ok p)
    (plain : d.isFolder p = false) (written : String) : d.SparesBut l (e.put p written) where
  same := ⟨spares.same.folders, spares.same.working⟩
  texts q := by
    rw [text?_put]
    split
    · next same => exact .inr (same ▸ ⟨atTemporary, plain⟩)
    · exact spares.texts q

/-- What is still to go wrong does not matter for where files are. -/
theorem SparesOthers.of_mishaps {mishaps : List Mishap} (spares : { d with mishaps }.SparesOthers l e) :
    d.SparesOthers l e where
  same := ⟨spares.same.folders, spares.same.working⟩
  texts q := by
    have same : SameFolders { d with mishaps } d := ⟨rfl, rfl⟩
    rcases spares.texts q with kept | temporary | own
    · exact .inl kept
    · exact .inr (.inl (same.locate temporary))
    · exact .inr (.inr (same.locate own))

end Disk

namespace FileStore

open Disk

variable {s : FileStore} {d e : Disk} {p : Place} {l : Location} {ids : IdSet} {error : StoreError}

/-- What opening the file of a store once more would give. -/
def reopened (s : FileStore) : Except StoreError IdSet := (openAt s.disk s.location).map (·.ids)

/-- What a file opens to depends on its text and on whether it is a folder. -/
theorem openAt_congr (texts : ∀ text, e.read l = .ok text ↔ d.read l = .ok text)
    (folders : e.read l = .error .isFolder ↔ d.read l = .error .isFolder) :
    (openAt e l).map (·.ids) = (openAt d l).map (·.ids) := by
  have present : e.isPresent l = d.isPresent l := by
    rw [Bool.eq_iff_iff, isPresent_iff, isPresent_iff, folders]
    simp only [texts]
  unfold openAt
  rw [present]
  split
  · next there =>
    rcases isPresent_iff.mp there with ⟨text, found⟩ | folder
    · rw [found, (texts text).mpr found]
      dsimp only
      cases readIds? text <;> rfl
    · rw [folder, folders.mpr folder]
  · rfl

/-- What the temporary file holds makes no difference to what the store's own file opens to:
where a location leads is decided by the folders alone, and its last name is another one than
that of its temporary location. -/
theorem openAt_of_sparesBut (rooted : d.Rooted) (spares : d.SparesBut l e) :
    (openAt e l).map (·.ids) = (openAt d l).map (·.ids) := by
  have located {q : Place} : e.locate l = .ok q ↔ d.locate l = .ok q :=
    ⟨spares.same.symm.locate, spares.same.locate⟩
  have own {q : Place} (atOwn : d.locate l = .ok q) : e.text? q = d.text? q := by
    rcases spares.texts q with same | ⟨atTemporary, plain⟩
    · exact same
    · exact absurd rfl (rooted.apart atTemporary plain atOwn)
  refine openAt_congr (fun text => ?_) ?_
  · rw [read_eq_ok, read_eq_ok]
    refine exists_congr fun q => ?_
    rw [located, spares.same.isFolder]
    exact and_congr_right fun atOwn => by rw [own atOwn]
  · rw [read_eq_isFolder, read_eq_isFolder]
    refine exists_congr fun q => ?_
    rw [located, spares.same.isFolder]

/-- All that replacing the ids does: either it fails, the ids are the same and no file differs but the
temporary one, or the ids are the new ones, and so they are in the file, and no other file differs either. -/
theorem replace_cases (s : FileStore) (ids : IdSet) :
    (∃ error disk, s.replace ids = (.error error, { s with disk }) ∧ s.disk.SparesBut s.location disk) ∨
      ∃ disk, s.replace ids = (.ok (), { s with ids, disk }) ∧ s.disk.SparesOthers s.location disk ∧
        disk.read s.location = .ok (idsText ids) := by
  unfold replace
  rcases s.disk.write_cases s.location.temporary (idsText ids) with
    ⟨cause, refused⟩ | ⟨p, written, atTemporary, plain, left, complete⟩
  · rw [refused]
    exact .inl ⟨_, _, rfl, s.disk.sparesBut_mishaps s.location _⟩
  · generalize s.disk.write s.location.temporary (idsText ids) = outcome at left complete ⊢
    obtain ⟨result, disk⟩ := outcome
    dsimp only at left complete
    subst left
    have spares : s.disk.SparesBut s.location (s.disk.nextMishap.2.put p written) :=
      (s.disk.sparesBut_mishaps s.location _).put atTemporary plain written
    cases result with
    | error cause => exact .inl ⟨_, _, rfl, spares⟩
    | ok done =>
      have whole := complete rfl
      subst whole
      dsimp only
      rcases (s.disk.nextMishap.2.put p (idsText ids)).move_cases s.location.temporary s.location with
        ⟨cause, refused⟩ | ⟨p', q, text, atTemporary', atOwn, found, slash, folder, moved⟩
      · rw [refused]
        exact .inl ⟨_, _, rfl, ⟨spares.same.folders, spares.same.working⟩, spares.texts⟩
      · rw [moved]
        have place := spares.same.symm.locate atTemporary'
        rw [atTemporary] at place
        cases place
        rw [text?_put, if_pos rfl] at found
        cases found
        refine .inr ⟨_, rfl, ⟨⟨rfl, rfl⟩, fun place => ?_⟩,
          read_eq_ok.mpr ⟨q, ?_, folder, by rw [text?_put, if_pos rfl], slash⟩⟩
        · rw [text?_put, text?_remove]
          by_cases own : place = q
          · exact .inr (.inr (own ▸ spares.same.symm.locate atOwn))
          · by_cases temporary : place = p
            · exact .inr (.inl (temporary ▸ atTemporary))
            · rw [if_neg own, if_neg temporary]
              exact spares.others.texts place
        · exact SameFolders.locate (d := s.disk.nextMishap.2.put p (idsText ids)) ⟨rfl, rfl⟩ atOwn

end FileStore

end FeatureNet
