import FeatureNet.FeatureId
import FeatureNet.IdMap
import FeatureNet.Json.Value
import FeatureNet.Xxh64

namespace FeatureNet

namespace Json

def idValue (id : FeatureId) : Value := .int id.toInt

def naturalValue (n : Nat) : Value := .int n

def idsValue (ids : List FeatureId) : Value := .array (ids.map idValue)

def optionValue {α : Type} (write : α → Value) : Option α → Value
  | none => .null
  | some a => write a

/-- A map as an object whose keys are the ids in decimal. -/
def idMapValue {α : Type} (write : α → Value) (m : IdMap α) : Value :=
  .object (m.entries.map fun e => (e.1.text, write e.2))

/-- An object with its tag first. -/
def taggedValue (tag : String) (members : List (String × Value)) : Value :=
  .object (("type", .text tag) :: members)

/-- The hash that stands for a value in fingerprints. -/
def Value.hash (v : Value) : UInt64 := Xxh64.ofText v.compactText

def Value.hashText (v : Value) : String := Xxh64.hexText v.hash

end Json

end FeatureNet
