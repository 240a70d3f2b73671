namespace FeatureNet

/-- The location of a file as it is written: names between slashes, from the root of all folders
if the first character is a slash. Empty names, `.` and `..` stay, since what they mean depends
on the folders there are. -/
structure Location where
  /-- Whether the text begins with a slash. -/
  absolute : Bool
  /-- What stands between the slashes after that one. -/
  parts : List (List Char)
deriving DecidableEq

namespace Location

def splitSlashes : List Char → List (List Char)
  | [] => [[]]
  | c :: rest =>
    if c = '/' then [] :: splitSlashes rest
    else
      match splitSlashes rest with
      | [] => [[c]]
      | part :: parts => (c :: part) :: parts

def joinSlashes : List (List Char) → List Char
  | [] => []
  | [part] => part
  | part :: parts => part ++ '/' :: joinSlashes parts

def ofText (text : String) : Location :=
  match text.toList with
  | '/' :: rest => ⟨true, splitSlashes rest⟩
  | cs => ⟨false, splitSlashes cs⟩

def chars (l : Location) : List Char :=
  if l.absolute then '/' :: joinSlashes l.parts else joinSlashes l.parts

def text (l : Location) : String := String.ofList l.chars

theorem splitSlashes_ne_nil (cs : List Char) : splitSlashes cs ≠ [] := by
  cases cs with
  | nil => simp [splitSlashes]
  | cons c rest =>
    unfold splitSlashes
    split
    · simp
    · split <;> simp

theorem joinSlashes_cons {part : List Char} {parts : List (List Char)} (more : parts ≠ []) :
    joinSlashes (part :: parts) = part ++ '/' :: joinSlashes parts := by
  cases parts with
  | nil => exact absurd rfl more
  | cons => rfl

theorem joinSlashes_cons_cons (c : Char) (part : List Char) (parts : List (List Char)) :
    joinSlashes ((c :: part) :: parts) = c :: joinSlashes (part :: parts) := by
  cases parts <;> rfl

theorem joinSlashes_splitSlashes (cs : List Char) : joinSlashes (splitSlashes cs) = cs := by
  induction cs with
  | nil => rfl
  | cons c rest ih =>
    unfold splitSlashes
    split
    · next slash => rw [joinSlashes_cons (splitSlashes_ne_nil rest), ih, slash]; rfl
    · split
      · next none => exact absurd none (splitSlashes_ne_nil rest)
      · next part parts found => rw [joinSlashes_cons_cons, ← found, ih]

theorem text_ofText (text : String) : (ofText text).text = text := by
  have whole : (ofText text).chars = text.toList := by
    unfold ofText
    split
    · next rest slash => simp [chars, joinSlashes_splitSlashes, slash]
    · simp [chars, joinSlashes_splitSlashes]
  simp [Location.text, whole]

/-- The names on the way, empty ones left out. -/
def names (l : Location) : List (List Char) := l.parts.filter (· ≠ [])

/-- Whether a slash follows the last name, which then can only be that of a folder. -/
def endsInSlash (l : Location) : Bool := l.parts.getLast? = some []

/-- The location without its last name. -/
def folder (l : Location) : Location := { l with parts := l.parts.dropLast }

/-- Whether a name leads nowhere: an empty one, or the folder itself. -/
def isIdle (name : List Char) : Bool := name = [] || name = ['.']

/-- A name up to the last dot after its first character; all of it if there is no such dot. -/
def stem (name : List Char) : List Char :=
  match name.reverse.dropWhile (· ≠ '.') with
  | _ :: first :: rest => (first :: rest).reverse
  | _ => name

/-- What replaces the extension of a name while the text of its file is not complete. -/
def temporaryExtension : List Char := ['.', 'j', 's', 'o', 'n', '.', 't', 'm', 'p']

/-- The name of the file, and the parts before it from the last to the first. Idle names at the end do not
count, and a location that ends in the folder above names no file. -/
def lastName? (l : Location) : Option (List Char × List (List Char)) :=
  match l.parts.reverse.dropWhile isIdle with
  | [] | ['.', '.'] :: _ => none
  | name :: before => some (name, before)

/-- The file beside this one that holds a text until it is complete. Where there is no name that could be
extended, the location is its own. A name such as `..a` right at the end gives way to the folder above,
which is what is left when its extension is cut off. -/
def temporary (l : Location) : Location :=
  match l.lastName? with
  | none => l
  | some (name, before) =>
    let last :=
      if stem name = ['.'] ∧ l.parts.getLast? = some name then ['.', '.']
      else stem name ++ temporaryExtension
    { l with parts := (last :: before).reverse }

end Location

end FeatureNet
