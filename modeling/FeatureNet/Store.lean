import FeatureNet.Store.File
import FeatureNet.Store.Memory

namespace FeatureNet

/-- A store of blocked vertices. Whether or not a change fails, it gives the store to go on with. -/
inductive Store
  | memory (s : MemoryStore)
  | file (s : FileStore)
deriving DecidableEq

namespace Store

/-- The ids that the store holds. -/
def ids : Store → IdSet
  | memory s => s.ids
  | file s => s.ids

/-- The ids in ascending order. -/
def load : Store → Except StoreError (List FeatureId)
  | memory s => s.load
  | file s => s.load

def add (id : FeatureId) : Store → Except StoreError Unit × Store
  | memory s => let (result, s) := s.add id; (result, memory s)
  | file s => let (result, s) := s.add id; (result, file s)

def remove (id : FeatureId) : Store → Except StoreError Unit × Store
  | memory s => let (result, s) := s.remove id; (result, memory s)
  | file s => let (result, s) := s.remove id; (result, file s)

def clear : Store → Except StoreError Unit × Store
  | memory s => let (result, s) := s.clear; (result, memory s)
  | file s => let (result, s) := s.clear; (result, file s)

end Store

end FeatureNet
