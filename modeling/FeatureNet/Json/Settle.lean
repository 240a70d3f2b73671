import FeatureNet.Json.Number
import FeatureNet.Json.Reader
import FeatureNet.Json.Value

namespace FeatureNet

namespace Json

def depthLimit : Nat := 127

/-- Puts a member at its place among ascending members, over one of the same key. -/
def placeMember (key : String) (item : Value) : List (String × Value) → List (String × Value)
  | [] => [(key, item)]
  | m :: rest =>
    if key < m.1 then (key, item) :: m :: rest
    else if key = m.1 then (key, item) :: rest
    else m :: placeMember key item rest

def sortMembers (members : List (String × Value)) : List (String × Value) :=
  members.foldl (fun sorted m => placeMember m.1 m.2 sorted) []

def Number.value : Number → Value
  | .int n => .int n
  | .float x => .float x

mutual

/-- The value of a text with at most `levels` levels of nesting, if every string and every number in it
makes sense. Members are sorted by key, and of a repeated key the last one counts. -/
def Doc.settle? (levels : Nat) : Doc → Option Value
  | .null => some .null
  | .bool b => some (.bool b)
  | .number l => l.number?.map Number.value
  | .text q => q.string?.map .text
  | .array items =>
    if levels = 0 then none else (settleItems? (levels - 1) items).map .array
  | .object members =>
    if levels = 0 then none
    else (settleMembers? (levels - 1) members).map fun members => .object (sortMembers members)

def settleItems? (levels : Nat) : List Doc → Option (List Value)
  | [] => some []
  | d :: rest => do return (← d.settle? levels) :: (← settleItems? levels rest)

def settleMembers? (levels : Nat) : List (Quoted × Doc) → Option (List (String × Value))
  | [] => some []
  | (key, d) :: rest => do
    let key ← key.string?
    let item ← d.settle? levels
    return (key, item) :: (← settleMembers? levels rest)

end

/-- The value of a text of any form. -/
def Value.read? (text : String) : Option Value := do (← Doc.read? text).settle? depthLimit

end Json

end FeatureNet
