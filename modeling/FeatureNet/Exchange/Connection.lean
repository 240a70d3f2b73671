import FeatureNet.Connection
import FeatureNet.Json.Decode
import FeatureNet.Json.Encode
import FeatureNet.Network.Intake

namespace FeatureNet

open Json

def Direction.decode? (d : Doc) : Option Direction := d.name?.bind Direction.ofName?

def Direction.encode (d : Direction) : Value := .text d.name

namespace Connection

/-- A connection goes both ways and costs nothing the other way unless it says otherwise. -/
def decode? (d : Doc) : Option Connection := do
  let [source, target, connector, direction, cost, inverseCost] ← d.fields?
    ["source_id", "target_id", "connector_id", "direction", "cost", "inverse_cost"] | none
  return {
    source := ← source.required Doc.id?
    target := ← target.required Doc.id?
    connector := ← connector.required Doc.id?
    direction := ← direction.orDefault .bidirectional Direction.decode?
    cost := ← cost.required Doc.float?
    inverseCost := ← inverseCost.orDefault Binary64.zero Doc.float? }

def encode (c : Connection) : Value :=
  .object [
    ("source_id", idValue c.source),
    ("target_id", idValue c.target),
    ("connector_id", idValue c.connector),
    ("direction", c.direction.encode),
    ("cost", .float c.cost),
    ("inverse_cost", .float c.inverseCost)]

end Connection

namespace Edge

def decode? (d : Doc) : Option Edge := do
  let [id, source, target, bidirectional, cost, inverseCost] ← d.fields?
    ["id", "source", "target", "bidirectional", "direct_cost", "inverse_cost"] | none
  return {
    id := ← id.required Doc.id?
    source := ← source.required Doc.id?
    target := ← target.required Doc.id?
    bidirectional := ← bidirectional.required Doc.bool?
    cost := ← cost.required Doc.float?
    inverseCost := ← inverseCost.required Doc.float? }

def encode (e : Edge) : Value :=
  .object [
    ("id", idValue e.id),
    ("source", idValue e.source),
    ("target", idValue e.target),
    ("bidirectional", .bool e.bidirectional),
    ("direct_cost", .float e.cost),
    ("inverse_cost", .float e.inverseCost)]

end Edge

namespace Vertex

def decode? (d : Doc) : Option Vertex := do
  let [blocked, outgoing] ← d.fields? ["blocked", "outgoing_edges"] | none
  return {
    blocked := ← blocked.required Doc.bool?
    outgoing := ← outgoing.required (Doc.list? Doc.id?) }

def encode (v : Vertex) : Value :=
  .object [("blocked", .bool v.blocked), ("outgoing_edges", idsValue v.outgoing)]

end Vertex

def Rejection.encode (r : Rejection) : Value :=
  .object [
    ("index", naturalValue r.index),
    ("record", r.connection.encode),
    ("error", .text r.error.message)]

def Report.encode (r : Report) : Value :=
  .object [
    ("records_read", naturalValue r.read),
    ("vertices_added", naturalValue r.verticesAdded),
    ("edges_added", naturalValue r.edgesAdded),
    ("failures", .array (r.rejections.map Rejection.encode))]

end FeatureNet
