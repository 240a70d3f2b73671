import FeatureNet.Json.Encode
import FeatureNet.Network.Blocking

namespace FeatureNet

open Json

/-- The version of the texts that are hashed. -/
def schemaVersion : String := "1.0.0"

/-- Hashes of the vertices, of how the edges run, of the costs and of the blocked vertices, and one over
them all. The texts that are hashed list everything in ascending order of id, so that the order in which
the network was built leaves no trace. -/
structure Fingerprint where
  id : String
  vertexCount : Nat
  edgeCount : Nat
  blockedCount : Nat
  schema : String
  vertexHash : String
  topologyHash : String
  costHash : String
  blockedHash : String
deriving DecidableEq

namespace Network

def vertexListing (n : Network) : Value := idsValue n.vertices.keys

def topologyListing (n : Network) : Value :=
  .array (n.edges.values.map fun e =>
    .array [idValue e.id, idValue e.source, idValue e.target, .bool e.bidirectional])

/-- Costs are listed by bit pattern, the two zeros alike. -/
def costListing (n : Network) : Value :=
  .array (n.edges.values.map fun e =>
    .array [idValue e.id, naturalValue e.cost.foldedBits.toNat,
      naturalValue e.inverseCost.foldedBits.toNat])

def blockedListing (n : Network) : Value := idsValue n.blockedVertices

end Network

namespace Fingerprint

/-- The value behind the fingerprint's own id: everything but that id. -/
def summary (f : Fingerprint) : Value :=
  .object [
    ("vertex_count", naturalValue f.vertexCount),
    ("edge_count", naturalValue f.edgeCount),
    ("blocked_count", naturalValue f.blockedCount),
    ("schema_version", .text f.schema),
    ("vertex_hash", .text f.vertexHash),
    ("topology_hash", .text f.topologyHash),
    ("cost_hash", .text f.costHash),
    ("blocked_hash", .text f.blockedHash)]

def sealed (f : Fingerprint) : Fingerprint := { f with id := f.summary.hashText }

end Fingerprint

namespace Network

def fingerprint (n : Network) : Fingerprint :=
  Fingerprint.sealed {
    id := ""
    vertexCount := n.vertices.size
    edgeCount := n.edges.size
    blockedCount := n.blockedVertices.length
    schema := schemaVersion
    vertexHash := n.vertexListing.hashText
    topologyHash := n.topologyListing.hashText
    costHash := n.costListing.hashText
    blockedHash := n.blockedListing.hashText }

/-- Whether a network still has a fingerprint. -/
def verify (n : Network) (f : Fingerprint) : Bool := n.fingerprint.id = f.id

end Network

end FeatureNet
