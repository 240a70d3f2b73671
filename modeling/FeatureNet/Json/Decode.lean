import FeatureNet.FeatureId
import FeatureNet.IdMap
import FeatureNet.IdSet
import FeatureNet.Json.Settle

namespace FeatureNet

namespace Json

def Doc.int? : Doc → Option Int
  | .number l =>
    match l.number? with
    | some (.int n) => some n
    | _ => none
  | _ => none

/-- A whole number from 0 to the greatest of 64 bits. -/
def Doc.natural? (d : Doc) : Option Nat := do
  let n ← d.int?
  if 0 ≤ n ∧ n ≤ 0xFFFFFFFFFFFFFFFF then some n.toNat else none

def Doc.id? (d : Doc) : Option FeatureId := d.int?.bind FeatureId.ofInt?

def Doc.float? : Doc → Option Binary64
  | .number l => l.number?.map fun
    | .int n => Binary64.ofInt n
    | .float x => x
  | _ => none

def Doc.bool? : Doc → Option Bool
  | .bool b => some b
  | _ => none

def Doc.string? : Doc → Option String
  | .text q => q.string?
  | _ => none

def Doc.list? {α : Type} (item : Doc → Option α) : Doc → Option (List α)
  | .array items => items.mapM item
  | _ => none

/-- A set may be listed in any order and with repeats. -/
def Doc.idSet? (d : Doc) : Option IdSet := (d.list? Doc.id?).map IdSet.ofList

/-- An id written as a key: the plain text of a whole number. -/
def Quoted.id? (q : Quoted) : Option FeatureId := do
  let cs ← q.mapM fun
    | .plain c => some c
    | .unit _ => none
  let (l, rest) ← readLiteral cs
  if rest.isEmpty then (Doc.number l).id? else none

/-- A map keyed by id; of a repeated key the last member counts. -/
def Doc.idMap? {α : Type} (item : Doc → Option α) : Doc → Option (IdMap α)
  | .object members =>
    (members.mapM fun (m : Quoted × Doc) => do return (← m.1.id?, ← item m.2)).map IdMap.ofList
  | _ => none

/-- What a text says of a field: its value, that an object leaves it out, or that an array ends before
it. -/
inductive Given
  | value (d : Doc)
  | omitted
  | cut

def givenIn (members : List (String × Doc)) (name : String) : Option Given :=
  match members.filter (·.1 = name) with
  | [] => some .omitted
  | [(_, d)] => some (.value d)
  | _ => none

/-- What a text says of the fields of a structure, which may be an object, where keys that are not its
own are passed over, or the array of the fields in order. A field given twice and an array longer than
the structure are refused. -/
def Doc.fields? (names : List String) : Doc → Option (List Given)
  | .object members => do
    let members ← members.mapM fun (m : Quoted × Doc) => do return (← m.1.string?, m.2)
    names.mapM (givenIn members)
  | .array items =>
    if items.length ≤ names.length then
      some (items.map .value ++ List.replicate (names.length - items.length) .cut)
    else none
  | _ => none

def Given.required {α : Type} (read : Doc → Option α) : Given → Option α
  | .value d => read d
  | .omitted | .cut => none

def Given.orDefault {α : Type} (default : α) (read : Doc → Option α) : Given → Option α
  | .value d => read d
  | .omitted | .cut => some default

/-- A field that may be null or left out of an object, but not cut off from an array. -/
def Given.optional {α : Type} (read : Doc → Option α) : Given → Option (Option α)
  | .value .null => some none
  | .value d => (read d).map some
  | .omitted => some none
  | .cut => none

/-- One of several names, or an object with the name as its only key and null as its value. -/
def Doc.name? : Doc → Option String
  | .text q => q.string?
  | .object [(key, .null)] => key.string?
  | _ => none

/-- A name in a text of free form, where the object's value may also be empty. -/
def Doc.freeName? : Doc → Option String
  | .object [(key, .object [])] => key.string?
  | d => d.name?

/-- The tag of a choice and the text of its fields. The tag is one member among the fields or the first
item of an array, and the whole text has to make sense as a text of free form. -/
def Doc.tagged? (d : Doc) : Option (String × Doc) := do
  let _ ← d.settle? depthLimit
  match d with
  | .object members =>
    let isTag := fun (m : Quoted × Doc) => m.1.string? = some "type"
    match members.filter isTag with
    | [(_, tag)] => return (← tag.string?, .object (members.filter fun m => !isTag m))
    | _ => none
  | .array (tag :: items) => return (← tag.string?, .array items)
  | _ => none

end Json

end FeatureNet
