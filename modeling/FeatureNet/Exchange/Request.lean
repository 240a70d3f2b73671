import FeatureNet.Exchange.Path
import FeatureNet.Session.Request

namespace FeatureNet

open Json

/-- Row kinds are read more freely inside a response than on their own. -/
def FeatureKind.decode? (name? : Doc → Option String) (d : Doc) : Option FeatureKind :=
  (name? d).bind FeatureKind.ofName?

namespace Row

def decode? (name? : Doc → Option String) (d : Doc) : Option Row := do
  let [route, ordinal, feature, kind, blocked] ←
    d.fields? ["path_num", "ordinal", "gfid", "kind", "blocked"] | none
  return {
    route := ← route.required Doc.natural?
    ordinal := ← ordinal.required Doc.natural?
    feature := ← feature.required Doc.id?
    kind := ← kind.required (FeatureKind.decode? name?)
    blocked := ← blocked.required Doc.bool? }

def encode (r : Row) : Value :=
  .object [
    ("path_num", naturalValue r.route),
    ("ordinal", naturalValue r.ordinal),
    ("gfid", idValue r.feature),
    ("kind", .text r.kind.name),
    ("blocked", .bool r.blocked)]

end Row

namespace Route

def decode? (name? : Doc → Option String) (d : Doc) : Option Route := do
  let [number, cost, path, rows] ← d.fields? ["path_num", "cost", "path", "features"] | none
  return {
    number := ← number.required Doc.natural?
    cost := ← cost.required Doc.float?
    path := ← path.required Path.decode?
    rows := ← rows.required (Doc.list? (Row.decode? name?)) }

def encode (r : Route) : Value :=
  .object [
    ("path_num", naturalValue r.number),
    ("cost", .float r.cost),
    ("path", r.path.encode),
    ("features", .array (r.rows.map Row.encode))]

end Route

namespace Request

/-- Reads the fields of a request of one type. A request for routes asks for one unless it says
otherwise. -/
def decodeAs? (tag : String) (d : Doc) : Option Request :=
  match tag with
  | "routing" => do
    let [source, target, count] ← d.fields? ["start", "end", "k"] | none
    return .routing (← source.required Doc.id?) (← target.required Doc.id?)
      (← count.orDefault 1 Doc.natural?)
  | "resource_distribution" => do
    let [emitters] ← d.fields? ["emitters"] | none
    return .distribution (← emitters.required Doc.idSet?)
  | "block" => do
    let [vertices] ← d.fields? ["vertices"] | none
    return .block (← vertices.required (Doc.list? Doc.id?))
  | "unblock" => do
    let [vertices] ← d.fields? ["vertices"] | none
    return .unblock (← vertices.required (Doc.list? Doc.id?))
  | "unblock_all" => do
    let _ ← d.fields? []
    return .unblockAll
  | _ => none

def decode? (d : Doc) : Option Request := do
  let (tag, d) ← d.tagged?
  decodeAs? tag d

def encode : Request → Value
  | .routing source target count =>
    taggedValue "routing" [("start", idValue source), ("end", idValue target),
      ("k", naturalValue count)]
  | .distribution emitters =>
    taggedValue "resource_distribution" [("emitters", idsValue emitters.toList)]
  | .block vertices => taggedValue "block" [("vertices", idsValue vertices)]
  | .unblock vertices => taggedValue "unblock" [("vertices", idsValue vertices)]
  | .unblockAll => taggedValue "unblock_all" []

end Request

namespace Response

def decodeRoutes? (d : Doc) : Option RouteSet := do
  let [source, target, requested, found] ←
    d.fields? ["start", "end", "requested", "routes"] | none
  return {
    source := ← source.required Doc.id?
    target := ← target.required Doc.id?
    requested := ← requested.required Doc.natural?
    routes := ← found.required (Doc.list? (Route.decode? Doc.freeName?)) }

def decodeDistribution? (d : Doc) : Option Distribution := do
  let [emitters, edges, vertices, rows] ←
    d.fields? ["emitters", "edges", "vertices", "features"] | none
  return {
    emitters := ← emitters.required Doc.idSet?
    edges := ← edges.required Doc.idSet?
    vertices := ← vertices.required Doc.idSet?
    rows := ← rows.required (Doc.list? (Row.decode? Doc.freeName?)) }

def decode? (d : Doc) : Option Response := do
  let (tag, d) ← d.tagged?
  match tag with
  | "routes" => return .routes (← decodeRoutes? d)
  | "distribution" => return .distribution (← decodeDistribution? d)
  | "blocked" =>
    let [vertices] ← d.fields? ["vertices"] | none
    return .blocked (← vertices.required (Doc.list? Doc.id?))
  | _ => none

def encode : Response → Value
  | .routes r =>
    taggedValue "routes" [
      ("start", idValue r.source),
      ("end", idValue r.target),
      ("requested", naturalValue r.requested),
      ("routes", .array (r.routes.map Route.encode))]
  | .distribution r =>
    taggedValue "distribution" [
      ("emitters", idsValue r.emitters.toList),
      ("edges", idsValue r.edges.toList),
      ("vertices", idsValue r.vertices.toList),
      ("features", .array (r.rows.map Row.encode))]
  | .blocked vertices => taggedValue "blocked" [("vertices", idsValue vertices)]

end Response

end FeatureNet
