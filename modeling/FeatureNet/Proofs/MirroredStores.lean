import FeatureNet.Proofs.CalmDisks
import FeatureNet.Proofs.WholeChanges

namespace FeatureNet

/-- What is done with a store: a change, or opening its file anew. -/
inductive Act
  | change (c : Change)
  | reopen

namespace MemoryStore

def change (s : MemoryStore) : Change → Except StoreError Unit × MemoryStore
  | .add id => s.add id
  | .remove id => s.remove id
  | .clear => s.clear

/-- What is kept in memory has no file to open. -/
def act (s : MemoryStore) : Act → Except StoreError MemoryStore
  | .change c => (s.change c).1.map fun _ => (s.change c).2
  | .reopen => .ok s

/-- Acts one after another, as long as none fails. -/
def run (s : MemoryStore) (acts : List Act) : Except StoreError MemoryStore := acts.foldlM act s

end MemoryStore

/-- A location without a file, or a file that lists ids, in any order and with repeats. -/
inductive Disk.Seeds (d : Disk) (l : Location) : List FeatureId → Prop
  | absent : d.isPresent l = false → Seeds d l []
  | listed {text : String} {ids : List FeatureId} : d.read l = .ok text → Json.ListsIds ids text.toList →
      Seeds d l ids

namespace FileStore

variable {s t : FileStore} {m : MemoryStore} {d : Disk} {l : Location} {ids : List FeatureId}

def act (s : FileStore) : Act → Except StoreError FileStore
  | .change c => (s.change c).1.map fun _ => (s.change c).2
  | .reopen => openAt s.disk s.location

/-- Acts one after another, as long as none fails. -/
def run (s : FileStore) (acts : List Act) : Except StoreError FileStore := acts.foldlM act s

/-- A store whose file would be opened with the ids that it holds, and one in memory that holds the same. -/
structure Mirrors (l : Location) (s : FileStore) (m : MemoryStore) : Prop where
  location : s.location = l
  kept : s.reopened = .ok s.ids
  memory : m = ⟨s.ids, false, false⟩

theorem Mirrors.act {a : Act} (mirrors : s.Mirrors l m) (done : s.act a = .ok t) :
    (∃ m', m.act a = .ok m' ∧ t.Mirrors l m') ∧
      ∀ c, a = .change c → t.disk.read l = .ok (idsText t.ids) := by
  obtain ⟨place, kept, rfl⟩ := mirrors
  cases a with
  | change c =>
    change (s.change c).1.map (fun _ => (s.change c).2) = .ok t at done
    rw [change_eq] at done
    have stored (done : (s.replace (c.result s.ids)).1 = .ok ()) := (reopened_replace done).2
    rcases s.replace_cases (c.result s.ids) with ⟨error, disk, replaced, _⟩ | ⟨disk, replaced, _, found⟩
    · rw [replaced] at done
      cases done
    · rw [replaced] at stored done
      cases done
      refine ⟨⟨⟨c.result s.ids, false, false⟩, ?_, place, stored rfl, rfl⟩, fun _ _ => place ▸ found⟩
      cases c <;> rfl
  | reopen =>
    obtain ⟨place', disk, again⟩ := openAt_ok done
    have held : t.ids = s.ids := by
      have opened := kept
      rw [reopened, show openAt s.disk s.location = .ok t from done] at opened
      exact Except.ok.inj opened
    exact ⟨⟨_, rfl, place'.trans place, again, by rw [held]⟩, fun c same => by cases same⟩

/-- A run of acts beside the same acts in memory, by induction on the last of them. -/
theorem Mirrors.run (mirrors : s.Mirrors l m) {acts : List Act} (done : s.run acts = .ok t) :
    (∃ m', m.run acts = .ok m' ∧ t.Mirrors l m') ∧
      ∀ c, acts.getLast? = some (.change c) → t.disk.read l = .ok (idsText t.ids) := by
  induction acts using List.reverseRecOn generalizing t with
  | nil =>
    cases done
    exact ⟨⟨m, rfl, mirrors⟩, fun c none => by cases none⟩
  | append_singleton acts a ih =>
    rw [FileStore.run, List.foldlM_append] at done
    cases before : acts.foldlM FileStore.act s with
    | error error =>
      rw [before] at done
      cases done
    | ok u =>
      rw [before] at done
      obtain ⟨⟨m', ran, mirrors'⟩, _⟩ := ih before
      have once : u.act a = .ok t := by
        change (u.act a >>= pure) = .ok t at done
        rwa [bind_pure] at done
      obtain ⟨⟨m'', acted, mirrors''⟩, written⟩ := mirrors'.act once
      refine ⟨⟨m'', ?_, mirrors''⟩, fun c last => written c ?_⟩
      · rw [MemoryStore.run] at ran ⊢
        rw [List.foldlM_append, ran]
        show (m'.act a >>= pure) = .ok m''
        rw [bind_pure, acted]
      · simpa using last

/-- Opening gives the ids listed. -/
theorem openAt_of_seeds (seeds : d.Seeds l ids) : openAt d l = .ok ⟨l, .ofList ids, d⟩ := by
  cases seeds with
  | absent none => simp [openAt, none, IdSet.ofList]
  | listed found lists =>
    have present := Disk.isPresent_iff.mpr (.inl ⟨_, found⟩)
    simp [openAt, present, found, readIds?_of_listsIds lists]

theorem Mirrors.act_calm (mirrors : s.Mirrors l m) (calm : s.disk.Calm l) (a : Act) :
    ∃ t, s.act a = .ok t ∧ t.disk.Calm l := by
  obtain ⟨rfl, kept, _⟩ := mirrors
  cases a with
  | change c =>
    obtain ⟨disk, replaced, later⟩ := replace_calm calm (c.result s.ids)
    refine ⟨{ s with ids := c.result s.ids, disk }, ?_, later⟩
    show (s.change c).1.map (fun _ => (s.change c).2) = _
    rw [change_eq, replaced]
    rfl
  | reopen =>
    cases opened : openAt s.disk s.location with
    | error error =>
      rw [reopened, opened] at kept
      cases kept
    | ok t => exact ⟨t, opened, (openAt_ok opened).2.1 ▸ calm⟩

theorem Mirrors.run_calm (mirrors : s.Mirrors l m) (calm : s.disk.Calm l) (acts : List Act) :
    ∃ t, s.run acts = .ok t := by
  induction acts generalizing s m with
  | nil => exact ⟨s, rfl⟩
  | cons a rest ih =>
    obtain ⟨t, done, calm'⟩ := mirrors.act_calm calm a
    obtain ⟨⟨m', _, mirrors'⟩, _⟩ := mirrors.act done
    obtain ⟨u, onward⟩ := ih mirrors' calm'
    refine ⟨u, ?_⟩
    rw [FileStore.run, List.foldlM_cons, done]
    exact onward

/-- A file store that is opened on no file, or on a list of ids, loads what a store in memory with these ids
loads, and so it goes on, after whatever changes, and wherever the file is opened anew, as long as the disk
does not fail: the ids, in ascending order and each once. After a change the text of the file is the array of
these. On a calm disk nothing fails. -/
theorem memory_mirrored (seeds : d.Seeds l ids) :
    ∃ s, openAt d l = .ok s ∧
      (∀ acts t, s.run acts = .ok t → ∃ m loaded, (MemoryStore.ofList ids).run acts = .ok m ∧
        m.load = .ok loaded ∧ t.load = .ok loaded ∧ loaded.Pairwise (· < ·) ∧
        ∀ c, acts.getLast? = some (.change c) →
          t.disk.read l = .ok (Json.idsValue loaded).prettyText ∧
            Json.ListsIds loaded (Json.idsValue loaded).prettyText.toList) ∧
      (d.Calm l → ∀ acts, ∃ t, s.run acts = .ok t) := by
  have opened := openAt_of_seeds seeds
  have mirrors : Mirrors l ⟨l, .ofList ids, d⟩ (MemoryStore.ofList ids) :=
    ⟨rfl, (openAt_ok opened).2.2, rfl⟩
  refine ⟨_, opened, fun acts t done => ?_, fun calm acts => mirrors.run_calm calm acts⟩
  obtain ⟨⟨m, ran, mirrors'⟩, written⟩ := mirrors.run done
  refine ⟨m, t.ids.toList, ran, ?_, rfl, t.ids.toList_ascending, fun c last => ⟨written c last, ?_⟩⟩
  · rw [mirrors'.memory]
    rfl
  · rw [Json.Value.prettyText, String.toList_ofList]
    exact Json.listsIds_pretty t.ids.toList

/-- A disk with a file in which one id is listed twice, not in order, and with blanks here and there. -/
def listing : Disk := Disk.empty.put ["blocked.json".toList] "[9, 2,\n2 ]"

theorem seeds_listing : listing.Seeds (.ofText "blocked.json") [9, 2, 2] := by
  let number (id : FeatureId) : List Char := Decimal.integerText id.toInt
  have numbers : List.Forall₂ (fun (id : FeatureId) text => Json.Spaced (number id) text) [9, 2, 2]
      [number 9, [' '] ++ number 2, ['\n'] ++ number 2] :=
    .cons (.refl _) (.cons (.lead (by decide) _) (.cons (.lead (by decide) _) .nil))
  have written : "[9, 2,\n2 ]".toList =
      Json.arrayText [' '] [number 9, [' '] ++ number 2, ['\n'] ++ number 2] := by decide +kernel
  have lists : Json.ListsIds [9, 2, 2] "[9, 2,\n2 ]".toList := by
    rw [written]
    exact .intro numbers (by decide) (.refl _)
  exact .listed (by decide +kernel) lists

/-- Changes with the file opened anew between them. -/
def errands : List Act := [.change (.add 5), .reopen, .change (.remove 9), .reopen, .change (.add 1)]

/-- What is listed twice is kept once, and the file is written anew in order. -/
theorem memory_mirrored_listing :
    listing.Seeds (.ofText "blocked.json") [9, 2, 2] ∧
      ∃ s t m, openAt listing (.ofText "blocked.json") = .ok s ∧ s.run errands = .ok t ∧
        (MemoryStore.ofList [9, 2, 2]).run errands = .ok m ∧ t.load = m.load ∧ t.load = .ok [1, 2, 5] ∧
        t.disk.read (.ofText "blocked.json") = .ok "[\n  1,\n  2,\n  5\n]" := by
  have calm : listing.Calm (.ofText "blocked.json") := {
    mishaps := List.forall_mem_nil _
    temporary := ⟨["blocked.json.tmp".toList], by decide +kernel⟩
    own := ⟨["blocked.json".toList], by decide +kernel⟩
    named := by decide +kernel }
  obtain ⟨s, opened, mirrored, sound⟩ := memory_mirrored seeds_listing
  obtain ⟨t, done⟩ := sound calm errands
  obtain ⟨m, loaded, ran, remembered, loads, _, written⟩ := mirrored errands t done
  have ids : loaded = [1, 2, 5] := by
    have left : (MemoryStore.ofList [9, 2, 2]).run errands = .ok (.ofList [1, 2, 5]) := by decide +kernel
    have list : (MemoryStore.ofList [1, 2, 5]).load = .ok [1, 2, 5] := by decide +kernel
    rw [Except.ok.inj (ran.symm.trans left), list] at remembered
    exact (Except.ok.inj remembered).symm
  subst ids
  refine ⟨seeds_listing, s, t, m, opened, done, ran, loads.trans remembered.symm, loads, ?_⟩
  rw [(written _ rfl).1]
  decide +kernel

end FileStore

end FeatureNet
