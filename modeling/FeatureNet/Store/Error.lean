import FeatureNet.Disk

namespace FeatureNet

/-- Why a store of blocked vertices cannot be read or changed. -/
inductive StoreError
  | readOnly
  | io (cause : Cause) (path : String)
  /-- The file does not hold an array of ids. -/
  | malformed
deriving DecidableEq

def StoreError.message : StoreError → String
  | readOnly => "Store is read-only"
  | io cause path => "I/O error: " ++ cause.message ++ " (path: " ++ path ++ ")"
  | malformed => "Malformed blocked-vertex file"

end FeatureNet
