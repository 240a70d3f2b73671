import FeatureNet.Location

namespace FeatureNet

/-- Why the system refuses to read, write or move a file. -/
inductive Cause
  | notFound
  | accessDenied
  | notFolder
  | isFolder
  | noSpace
  | nameTooLong
  /-- No name can hold the character of code 0. -/
  | zeroInName
deriving DecidableEq

def Cause.message : Cause → String
  | notFound => "No such file or directory (os error 2)"
  | accessDenied => "Permission denied (os error 13)"
  | notFolder => "Not a directory (os error 20)"
  | isFolder => "Is a directory (os error 21)"
  | noSpace => "No space left on device (os error 28)"
  | nameTooLong => "File name too long (os error 36)"
  | zeroInName => "file name contained an unexpected NUL byte"

/-- What goes wrong with one write or move. -/
inductive Mishap
  | nothing
  | refused (cause : Cause)
  /-- A write that breaks off after some characters; a move is refused. -/
  | brokenOff (written : Nat) (cause : Cause)
deriving DecidableEq

/-- A place in the tree of folders: the names on the way from the root, the last one first. -/
abbrev Place := List (List Char)

/-- Plain files in folders. What goes wrong without the state of the disk explaining it is laid
down as a list of mishaps. -/
structure Disk where
  /-- The text of each plain file. -/
  files : List (Place × String)
  folders : List Place
  /-- The folder where the program runs. -/
  working : Place
  /-- One entry for each write or move to come; after the last all go well. -/
  mishaps : List Mishap
deriving DecidableEq

namespace Disk

/-- The disk with nothing but its root, where the program runs. -/
def empty : Disk := ⟨[], [[]], [], []⟩

def text? (d : Disk) (p : Place) : Option String := d.files.lookup p

def isFolder (d : Disk) (p : Place) : Bool := d.folders.contains p

def put (d : Disk) (p : Place) (text : String) : Disk :=
  { d with files := (p, text) :: d.files.filter fun f => f.1 ≠ p }

def remove (d : Disk) (p : Place) : Disk :=
  { d with files := d.files.filter fun f => f.1 ≠ p }

theorem lookup_filter_ne (p q : Place) (files : List (Place × String)) :
    (files.filter fun f => f.1 ≠ p).lookup q = if q = p then none else files.lookup q := by
  induction files with
  | nil => simp
  | cons head rest ih =>
    obtain ⟨place, text⟩ := head
    by_cases gone : place = p
    · subst gone
      by_cases same : q = place
      · simpa [same] using ih
      · simpa [List.lookup_cons, same, beq_false_of_ne same] using ih
    · by_cases same : q = place
      · subst same
        simp [gone]
      · simpa [List.lookup_cons, gone, beq_false_of_ne same] using ih

theorem text?_put (d : Disk) (p q : Place) (text : String) :
    (d.put p text).text? q = if q = p then some text else d.text? q := by
  by_cases same : q = p
  · simp [text?, put, same]
  · simpa [text?, put, List.lookup_cons, same, beq_false_of_ne same] using
      lookup_filter_ne p q d.files

theorem text?_remove (d : Disk) (p q : Place) :
    (d.remove p).text? q = if q = p then none else d.text? q := lookup_filter_ne p q d.files

def addFolder (d : Disk) (p : Place) : Disk := { d with folders := p :: d.folders }

/-- The names and texts of the plain files directly in a folder. -/
def filesIn (d : Disk) (folder : Place) : List (List Char × String) :=
  d.files.filterMap fun
    | (name :: p, text) => if p = folder then some (name, text) else none
    | ([], _) => none

def byteCount (cs : List Char) : Nat := cs.foldr (fun c bytes => c.utf8Size + bytes) 0

/-- How many bytes a name may have. -/
def nameLimit : Nat := 255

/-- How many bytes a location may have. -/
def locationLimit : Nat := 4095

/-- Why a location cannot lead anywhere, whatever the disk holds. -/
def flaw? (l : Location) : Option Cause :=
  if '\x00' ∈ l.chars then some .zeroInName
  else if locationLimit < byteCount l.chars then some .nameTooLong
  else if l.chars = [] then some .notFound
  else none

/-- One name further from a folder; above the root there is only the root. -/
def step (p : Place) (name : List Char) : Except Cause Place :=
  if name = ['.'] then .ok p
  else if name = ['.', '.'] then .ok p.tail
  else if nameLimit < byteCount name then .error .nameTooLong
  else .ok (name :: p)

/-- One name further, into a folder. -/
def enter (d : Disk) (p : Place) (name : List Char) : Except Cause Place :=
  match step p name with
  | .error cause => .error cause
  | .ok p =>
    if d.isFolder p then .ok p
    else .error (if (d.text? p).isSome then .notFolder else .notFound)

/-- Where a location is followed from. -/
def startOf (d : Disk) (l : Location) : Place := if l.absolute then [] else d.working

/-- Follows names, all but the last into folders. -/
def follow (d : Disk) (p : Place) : List (List Char) → Except Cause Place
  | [] => .ok p
  | [name] => step p name
  | name :: names =>
    match d.enter p name with
    | .error cause => .error cause
    | .ok p => d.follow p names

/-- The place of a location, whether or not anything is there. -/
def locate (d : Disk) (l : Location) : Except Cause Place :=
  match flaw? l with
  | some cause => .error cause
  | none => d.follow (d.startOf l) l.names

def read (d : Disk) (l : Location) : Except Cause String :=
  match d.locate l with
  | .error cause => .error cause
  | .ok p =>
    if d.isFolder p then .error .isFolder
    else
      match d.text? p with
      | none => .error .notFound
      | some text => if l.endsInSlash then .error .notFolder else .ok text

/-- Whether there is a file or folder at a location. -/
def isPresent (d : Disk) (l : Location) : Bool :=
  match d.read l with
  | .ok _ | .error .isFolder => true
  | .error _ => false

/-- The next mishap, and the disk after it. -/
def nextMishap (d : Disk) : Mishap × Disk :=
  (d.mishaps.headD .nothing, { d with mishaps := d.mishaps.drop 1 })

/-- Writes a file, over one that is there. Writing may break off and leave the beginning of the text. -/
def write (d : Disk) (l : Location) (text : String) : Except Cause Unit × Disk :=
  let (mishap, d) := d.nextMishap
  match d.locate l with
  | .error cause => (.error cause, d)
  | .ok p =>
    if l.endsInSlash || d.isFolder p then (.error .isFolder, d)
    else
      match mishap with
      | .nothing => (.ok (), d.put p text)
      | .refused cause => (.error cause, d)
      | .brokenOff written cause =>
        (.error cause, d.put p (String.ofList (text.toList.take written)))

/-- Moves a file, over one that is there; it happens or it does not. -/
def move (d : Disk) (source target : Location) : Except Cause Unit × Disk :=
  let (mishap, d) := d.nextMishap
  match d.locate source, d.locate target with
  | .error cause, _ | _, .error cause => (.error cause, d)
  | .ok p, .ok q =>
    match d.text? p with
    | none => (.error .notFound, d)
    | some text =>
      if target.endsInSlash then (.error .notFolder, d)
      else if d.isFolder q then (.error .isFolder, d)
      else
        match mishap with
        | .nothing => (.ok (), (d.remove p).put q text)
        | .refused cause | .brokenOff _ cause => (.error cause, d)

/-- Makes the folders that following names from a place would need, the last one too. -/
def makeFoldersFrom (d : Disk) (p : Place) : List (List Char) → Except Cause Disk
  | [] => .ok d
  | name :: names =>
    match step p name with
    | .error cause => .error cause
    | .ok p =>
      if d.isFolder p then d.makeFoldersFrom p names
      else if (d.text? p).isSome then .error .notFolder
      else (d.addFolder p).makeFoldersFrom p names

/-- Makes a folder at a location, with those on the way to it. -/
def makeFolders (d : Disk) (l : Location) : Except Cause Disk :=
  d.makeFoldersFrom (d.startOf l) l.names

/-- A disk that holds nothing but the folder where the program runs, with those on the way to it. -/
def runningIn (l : Location) : Disk :=
  match empty.makeFolders l with
  | .ok d => { d with working := l.names.reverse }
  | .error _ => empty

end Disk

end FeatureNet
