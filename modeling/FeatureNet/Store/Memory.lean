import FeatureNet.IdSet
import FeatureNet.Store.Error

namespace FeatureNet

/-- Blocked vertices kept in memory. Writes can be switched off. -/
structure MemoryStore where
  ids : IdSet
  readOnly : Bool
  /-- What is kept in memory always loads; the switch stands for a store of another kind whose load
  fails. -/
  loadRefused : Bool
deriving DecidableEq

namespace MemoryStore

def ofList (ids : List FeatureId) : MemoryStore := ⟨.ofList ids, false, false⟩

def load (s : MemoryStore) : Except StoreError (List FeatureId) :=
  if s.loadRefused then .error .readOnly else .ok s.ids.toList

/-- Replaces the ids, unless writes are switched off. -/
def replace (s : MemoryStore) (ids : IdSet) : Except StoreError Unit × MemoryStore :=
  if s.readOnly then (.error .readOnly, s) else (.ok (), { s with ids })

def add (s : MemoryStore) (id : FeatureId) : Except StoreError Unit × MemoryStore :=
  s.replace (s.ids.insert id)

def remove (s : MemoryStore) (id : FeatureId) : Except StoreError Unit × MemoryStore :=
  s.replace (s.ids.erase id)

def clear (s : MemoryStore) : Except StoreError Unit × MemoryStore := s.replace .empty

end MemoryStore

end FeatureNet
