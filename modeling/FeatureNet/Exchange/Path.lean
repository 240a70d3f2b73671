import FeatureNet.Json.Decode
import FeatureNet.Json.Encode
import FeatureNet.Path
import FeatureNet.PathTree

namespace FeatureNet

open Json

namespace Step

def decode? (d : Doc) : Option Step := do
  let [vertex, edge] ← d.fields? ["vertex", "edge"] | none
  return { vertex := ← vertex.required Doc.id?, edge := ← edge.optional Doc.id? }

def encode (s : Step) : Value :=
  .object [("vertex", idValue s.vertex), ("edge", optionValue idValue s.edge)]

end Step

namespace Path

def decode? (d : Doc) : Option Path := (d.list? Step.decode?).map Path.mk

def encode (p : Path) : Value := .array (p.steps.map Step.encode)

end Path

namespace PathTree

/-- The edge before a vertex, or null. -/
def edgeOrNull? : Doc → Option (Option FeatureId)
  | .null => some none
  | d => d.id?.map some

def decode? (d : Doc) : Option PathTree := do
  let [root, predecessors, distances] ← d.fields? ["root", "predecessors", "distances"] | none
  return {
    root := ← root.optional Doc.id?
    predecessors := ← predecessors.required (Doc.idMap? edgeOrNull?)
    distances := ← distances.required (Doc.idMap? Doc.float?) }

def encode (t : PathTree) : Value :=
  .object [
    ("root", optionValue idValue t.root),
    ("predecessors", idMapValue (optionValue idValue) t.predecessors),
    ("distances", idMapValue .float t.distances)]

end PathTree

end FeatureNet
