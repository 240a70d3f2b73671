import FeatureNet.Config
import FeatureNet.Exchange.Connection
import FeatureNet.Exchange.Request
import FeatureNet.Proofs.WrittenFields

namespace FeatureNet

open Json

theorem Direction.decode?_parsed (d : Direction) : decode? d.encode.parsed = some d := by
  rw [decode?, encode, name?_parsed, Option.bind_some, ofName?_name]

theorem Connection.decode?_parsed {c : Connection} (returns : c.encode.Returns) :
    decode? c.encode.parsed = some c := by
  have cost : (Value.float c.cost).Returns := returns.member "cost" (by simp)
  have inverse : (Value.float c.inverseCost).Returns := returns.member "inverse_cost" (by simp)
  rw [decode?, encode, fields?_parsed (by rfl) (by decide)]
  simp [Given.required, Given.orDefault, id?_parsed, Direction.decode?_parsed, cost.float?, inverse.float?]

theorem Edge.decode?_parsed {e : Edge} (returns : e.encode.Returns) : decode? e.encode.parsed = some e := by
  have cost : (Value.float e.cost).Returns := returns.member "direct_cost" (by simp)
  have inverse : (Value.float e.inverseCost).Returns := returns.member "inverse_cost" (by simp)
  rw [decode?, encode, fields?_parsed (by rfl) (by decide)]
  simp [Given.required, id?_parsed, bool?_parsed, cost.float?, inverse.float?]

theorem Vertex.decode?_parsed (v : Vertex) : decode? v.encode.parsed = some v := by
  rw [decode?, encode, fields?_parsed (by rfl) (by decide)]
  simp [Given.required, bool?_parsed, ids?_parsed]

theorem Vertex.returns (v : Vertex) : v.encode.Returns := by
  simp [encode, returns_object, returns_bool, returns_idsValue]

theorem Step.decode?_parsed (s : Step) : decode? s.encode.parsed = some s := by
  rw [decode?, encode, fields?_parsed (by rfl) (by decide)]
  simp [Given.required, id?_parsed, optional_parsed]

theorem Step.returns (s : Step) : s.encode.Returns := by
  simp [encode, returns_object, returns_idValue, returns_optionValue]

theorem Path.decode?_parsed (p : Path) : decode? p.encode.parsed = some p := by
  rw [decode?, encode, list?_parsed fun s _ => Step.decode?_parsed s, Option.map_some]

theorem Path.returns (p : Path) : p.encode.Returns :=
  returns_array.mpr (List.forall_mem_map.mpr fun s _ => s.returns)

theorem PathTree.edgeOrNull?_parsed (id : Option FeatureId) :
    edgeOrNull? (optionValue idValue id).parsed = some id := by
  cases id with
  | none => rfl
  | some id => exact congrArg (Option.map some) (id?_parsed id)

theorem PathTree.decode?_parsed {t : PathTree} (returns : t.encode.Returns) : decode? t.encode.parsed = some t := by
  have listed : (idMapValue .float t.distances).Returns := returns.member "distances" (by simp)
  have each (e : FeatureId × Binary64) (member : e ∈ t.distances.entries) : (Value.float e.2).Returns :=
    listed.member e.1.text (List.mem_map_of_mem member)
  have distances := idMap?_parsed fun e member => (each e member).float?
  have predecessors := idMap?_parsed (m := t.predecessors) fun e _ => edgeOrNull?_parsed e.2
  rw [decode?, encode, fields?_parsed (by rfl) (by decide)]
  simp [Given.required, optional_parsed, predecessors, distances]

theorem Config.decode?_parsed {c : Config} (returns : c.encode.Returns) : decode? c.encode.parsed = some c := by
  have count : (naturalValue c.maxCount).Returns := returns.member "max_k" (by simp)
  rw [decode?, encode, fields?_parsed (by rfl) (by decide)]
  simp [Given.orDefault, string?_parsed, bool?_parsed, count.natural?]

section Rows

variable {name? : Doc → Option String}

/-- Kinds of rows are read back by every reader that takes a name for itself. -/
theorem FeatureKind.decode?_parsed (plain : ∀ s : String, name? (Value.text s).parsed = some s)
    (kind : FeatureKind) : decode? name? (Value.text kind.name).parsed = some kind := by
  rw [decode?, plain]
  cases kind <;> decide

theorem Row.decode?_parsed (plain : ∀ s : String, name? (Value.text s).parsed = some s) {r : Row}
    (returns : r.encode.Returns) : decode? name? r.encode.parsed = some r := by
  have route : (naturalValue r.route).Returns := returns.member "path_num" (by simp)
  have ordinal : (naturalValue r.ordinal).Returns := returns.member "ordinal" (by simp)
  rw [decode?, encode, fields?_parsed (by rfl) (by decide)]
  simp [Given.required, id?_parsed, bool?_parsed, route.natural?, ordinal.natural?,
    FeatureKind.decode?_parsed plain]

theorem Route.decode?_parsed (plain : ∀ s : String, name? (Value.text s).parsed = some s) {r : Route}
    (returns : r.encode.Returns) : decode? name? r.encode.parsed = some r := by
  have number : (naturalValue r.number).Returns := returns.member "path_num" (by simp)
  have cost : (Value.float r.cost).Returns := returns.member "cost" (by simp)
  have listed : (Value.array (r.rows.map Row.encode)).Returns := returns.member "features" (by simp)
  have rows := list?_parsed fun row member => Row.decode?_parsed plain (listed.item member)
  rw [decode?, encode, fields?_parsed (by rfl) (by decide)]
  simp [Given.required, number.natural?, cost.float?, Path.decode?_parsed, rows]

end Rows

section Nesting

variable (levels : Nat)

theorem within_idsValue (ids : List FeatureId) : (idsValue ids).Within (levels + 1) := by
  simp [idsValue, idValue]

theorem Step.within (s : Step) : s.encode.Within (levels + 1) := by
  cases shape : s.edge <;> simp [encode, idValue, optionValue, shape]

theorem Row.within (r : Row) : r.encode.Within (levels + 1) := by
  simp [encode, idValue, naturalValue]

theorem Route.within (r : Route) : r.encode.Within (levels + 3) := by
  simp [encode, naturalValue, Path.encode, Row.within, Step.within]

theorem Request.within (r : Request) : r.encode.Within (levels + 2) := by
  cases r <;> simp [encode, taggedValue, idValue, naturalValue, within_idsValue]

theorem Response.within (r : Response) : r.encode.Within (levels + 5) := by
  cases r <;>
    simp [encode, taggedValue, idValue, naturalValue, within_idsValue, Row.within, Route.within]

end Nesting

section Choices

theorem Request.decode?_tagged {tag : String} {members : List (String × Value)}
    (returns : (taggedValue tag members).Returns) (within : (taggedValue tag members).Within depthLimit)
    (untagged : "type" ∉ members.map (·.1)) :
    decode? (taggedValue tag members).parsed = decodeAs? tag (Value.object members).parsed := by
  rw [decode?, tagged?_parsed returns within untagged]
  rfl

theorem Request.decode?_parsed {r : Request} (returns : r.encode.Returns) : decode? r.encode.parsed = some r := by
  have within : r.encode.Within depthLimit := r.within 125
  cases r with
  | routing source target count =>
    have count : (naturalValue count).Returns := returns.fields.member "k" (by simp)
    rw [encode, decode?_tagged returns within (by simp), decodeAs?, fields?_parsed (by rfl) (by decide)]
    simp [Given.required, Given.orDefault, id?_parsed, count.natural?]
  | distribution emitters =>
    rw [encode, decode?_tagged returns within (by simp), decodeAs?, fields?_parsed (by rfl) (by decide)]
    simp [Given.required, idSet?_parsed]
  | block vertices =>
    rw [encode, decode?_tagged returns within (by simp), decodeAs?, fields?_parsed (by rfl) (by decide)]
    simp [Given.required, ids?_parsed]
  | unblock vertices =>
    rw [encode, decode?_tagged returns within (by simp), decodeAs?, fields?_parsed (by rfl) (by decide)]
    simp [Given.required, ids?_parsed]
  | unblockAll =>
    rw [encode, decode?_tagged returns within (by simp), decodeAs?, fields?_parsed (by rfl) (by decide)]
    rfl

theorem Response.decode?_parsed {r : Response} (returns : r.encode.Returns) : decode? r.encode.parsed = some r := by
  have within : r.encode.Within depthLimit := r.within 122
  cases r with
  | routes r =>
    have requested : (naturalValue r.requested).Returns := returns.fields.member "requested" (by simp)
    have listed : (Value.array (r.routes.map Route.encode)).Returns := returns.fields.member "routes" (by simp)
    have routes := list?_parsed fun route member => Route.decode?_parsed freeName?_parsed (listed.item member)
    rw [decode?, encode, tagged?_parsed returns within (by simp)]
    simp only [Option.bind_eq_bind, Option.bind_some]
    rw [decodeRoutes?, fields?_parsed (by rfl) (by decide)]
    simp [Given.required, id?_parsed, requested.natural?, routes]
  | distribution r =>
    have listed : (Value.array (r.rows.map Row.encode)).Returns := returns.fields.member "features" (by simp)
    have rows := list?_parsed fun row member => Row.decode?_parsed freeName?_parsed (listed.item member)
    rw [decode?, encode, tagged?_parsed returns within (by simp)]
    simp only [Option.bind_eq_bind, Option.bind_some]
    rw [decodeDistribution?, fields?_parsed (by rfl) (by decide)]
    simp [Given.required, idSet?_parsed, rows]
  | blocked vertices =>
    rw [decode?, encode, tagged?_parsed returns within (by simp)]
    simp only [Option.bind_eq_bind, Option.bind_some]
    rw [fields?_parsed (by rfl) (by decide)]
    simp [Given.required, ids?_parsed]

end Choices

section Exchange

variable {α : Type} {encode : α → Value} {decode? : Doc → Option α} {a : α}

/-- Whether something is read back from both forms of its text. -/
def ReadsBack (encode : α → Value) (decode? : Doc → Option α) (a : α) : Prop :=
  (Doc.read? (encode a).compactText).bind decode? = some a ∧
    (Doc.read? (encode a).prettyText).bind decode? = some a

theorem readsBack_of_parsed (returns : (encode a).Returns) (decoded : decode? (encode a).parsed = some a) :
    ReadsBack encode decode? a := by
  obtain ⟨compact, pretty⟩ := returns.read?
  rw [ReadsBack, compact, pretty]
  exact ⟨decoded, decoded⟩

/-- Every connection, edge, vertex, step, path, path tree, configuration, row, route, request and response is
read back bit for bit from both forms of its text. Of its numbers it takes that each is read back from its own
text, those that stand for counts within 64 bits and the binary ones finite; ids always are. -/
theorem exchange_readsBack :
    (∀ c : Connection, c.encode.Returns → ReadsBack Connection.encode Connection.decode? c) ∧
    (∀ e : Edge, e.encode.Returns → ReadsBack Edge.encode Edge.decode? e) ∧
    (∀ v : Vertex, ReadsBack Vertex.encode Vertex.decode? v) ∧
    (∀ s : Step, ReadsBack Step.encode Step.decode? s) ∧
    (∀ p : Path, ReadsBack Path.encode Path.decode? p) ∧
    (∀ t : PathTree, t.encode.Returns → ReadsBack PathTree.encode PathTree.decode? t) ∧
    (∀ c : Config, c.encode.Returns → ReadsBack Config.encode Config.decode? c) ∧
    (∀ r : Row, r.encode.Returns → ReadsBack Row.encode (Row.decode? Doc.name?) r) ∧
    (∀ r : Route, r.encode.Returns → ReadsBack Route.encode (Route.decode? Doc.name?) r) ∧
    (∀ r : Request, r.encode.Returns → ReadsBack Request.encode Request.decode? r) ∧
    (∀ r : Response, r.encode.Returns → ReadsBack Response.encode Response.decode? r) :=
  ⟨fun _ returns => readsBack_of_parsed returns (Connection.decode?_parsed returns),
    fun _ returns => readsBack_of_parsed returns (Edge.decode?_parsed returns),
    fun v => readsBack_of_parsed v.returns v.decode?_parsed,
    fun s => readsBack_of_parsed s.returns s.decode?_parsed,
    fun p => readsBack_of_parsed p.returns p.decode?_parsed,
    fun _ returns => readsBack_of_parsed returns (PathTree.decode?_parsed returns),
    fun _ returns => readsBack_of_parsed returns (Config.decode?_parsed returns),
    fun _ returns => readsBack_of_parsed returns (Row.decode?_parsed name?_parsed returns),
    fun _ returns => readsBack_of_parsed returns (Route.decode?_parsed name?_parsed returns),
    fun _ returns => readsBack_of_parsed returns (Request.decode?_parsed returns),
    fun _ returns => readsBack_of_parsed returns (Response.decode?_parsed returns)⟩

/-- A cost of many digits may come back with other bits. -/
example : ¬(Value.float ⟨0x432FFFFFFFFFFFFF⟩).Returns := by decide +kernel

def leastId : FeatureId := ⟨Int64.minValue⟩

def greatestId : FeatureId := ⟨Int64.maxValue⟩

/-- The greatest finite number. -/
def greatestCost : Binary64 := ⟨0x7FEFFFFFFFFFFFFF⟩

/-- The least positive number. -/
def leastCost : Binary64 := ⟨1⟩

def outerTree : PathTree where
  root := some leastId
  predecessors := .ofList [(leastId, none), (greatestId, some 0)]
  distances := .ofList [(leastId, Binary64.negativeZero), (greatestId, greatestCost)]

def outerRoute : Route where
  number := 0xFFFFFFFFFFFFFFFF
  cost := greatestCost
  path := ⟨[⟨leastId, none⟩, ⟨greatestId, some 0⟩]⟩
  rows := [⟨1, 0, leastId, .vertex, true⟩, ⟨1, 0xFFFFFFFFFFFFFFFF, 0, .edge, false⟩]

theorem exchange_readsBack_outer :
    ReadsBack Connection.encode Connection.decode?
      ⟨leastId, greatestId, 0, .targetToSource, leastCost, Binary64.negativeZero⟩ ∧
    ReadsBack Edge.encode Edge.decode? ⟨0, greatestId, leastId, true, greatestCost, ⟨0x3FB999999999999A⟩⟩ ∧
    ReadsBack PathTree.encode PathTree.decode? outerTree ∧
    ReadsBack Config.encode Config.decode? ⟨"\t\"\\\x01\u00e9", 0xFFFFFFFFFFFFFFFF, false, true⟩ ∧
    ReadsBack Row.encode (Row.decode? Doc.name?) ⟨1, 0xFFFFFFFFFFFFFFFF, leastId, .edge, false⟩ ∧
    ReadsBack Route.encode (Route.decode? Doc.name?) outerRoute ∧
    ReadsBack Request.encode Request.decode? (.routing leastId greatestId 0xFFFFFFFFFFFFFFFF) ∧
    ReadsBack Response.encode Response.decode? (.routes ⟨leastId, greatestId, 2, [outerRoute]⟩) := by
  obtain ⟨connection, edge, -, -, -, tree, config, row, route, request, response⟩ := exchange_readsBack
  exact ⟨connection _ (by decide +kernel), edge _ (by decide +kernel), tree _ (by decide +kernel),
    config _ (by decide +kernel), row _ (by decide +kernel), route _ (by decide +kernel),
    request _ (by decide +kernel), response _ (by decide +kernel)⟩

end Exchange

end FeatureNet
