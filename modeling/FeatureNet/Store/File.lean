import FeatureNet.Json.Decode
import FeatureNet.Json.Encode
import FeatureNet.Store.Error

namespace FeatureNet

/-- Blocked vertices kept in a file, as an array of ids in ascending order. -/
structure FileStore where
  location : Location
  ids : IdSet
  disk : Disk
deriving DecidableEq

namespace FileStore

def idsText (ids : IdSet) : String := (Json.idsValue ids.toList).prettyText

def readIds? (text : String) : Option IdSet := do (← Json.Doc.read? text).idSet?

/-- Opens the store of a file; a missing file holds no ids. -/
def openAt (disk : Disk) (location : Location) : Except StoreError FileStore :=
  if disk.isPresent location then
    match disk.read location with
    | .error cause => .error (.io cause location.text)
    | .ok text =>
      match readIds? text with
      | none => .error .malformed
      | some ids => .ok { location, ids, disk }
  else .ok { location, ids := .empty, disk }

def load (s : FileStore) : Except StoreError (List FeatureId) := .ok s.ids.toList

/-- Replaces the ids. The whole array is written to a temporary file and moved over the file, so that the
file holds either the ids before the change or those after it. The store's own ids change last. -/
def replace (s : FileStore) (ids : IdSet) : Except StoreError Unit × FileStore :=
  match s.disk.write s.location.temporary (idsText ids) with
  | (.error cause, disk) =>
    (.error (.io cause s.location.temporary.text), { s with disk })
  | (.ok (), disk) =>
    match disk.move s.location.temporary s.location with
    | (.error cause, disk) => (.error (.io cause s.location.text), { s with disk })
    | (.ok (), disk) => (.ok (), { s with ids, disk })

def add (s : FileStore) (id : FeatureId) : Except StoreError Unit × FileStore :=
  s.replace (s.ids.insert id)

def remove (s : FileStore) (id : FeatureId) : Except StoreError Unit × FileStore :=
  s.replace (s.ids.erase id)

def clear (s : FileStore) : Except StoreError Unit × FileStore := s.replace .empty

end FileStore

end FeatureNet
