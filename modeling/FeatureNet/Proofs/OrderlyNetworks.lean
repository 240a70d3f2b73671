import FeatureNet.Proofs.EdgeOrder
import Mathlib.Data.List.Induction

namespace FeatureNet

namespace Network

/-- What is done to a network in place. What has been changed stays changed if an error follows. -/
abbrev InPlace := ExceptT NetworkError (StateM Network)

namespace InPlace

/-- The result of an act on a network, and the network after it. -/
def on (act : InPlace Unit) (n : Network) : Except NetworkError Unit × Network := StateT.run act.run n

def refuse (condition : Bool) (error : NetworkError) : InPlace Unit :=
  if condition then throw error else pure ()

/-- All checks come before the first change. An edge is listed at one end, then at the other, and is known
by its id only after that. -/
def addEdge (e : Edge) : InPlace Unit := do
  let n ← get
  refuse (n.containsEdge e.id) (.duplicateEdge e.id)
  refuse (!isCost e.cost) (.invalidCost e.id e.cost)
  refuse (!n.containsVertex e.source) (.vertexNotFound e.source)
  refuse (!n.containsVertex e.target) (.vertexNotFound e.target)
  modify fun n => { n with vertices := n.vertices.modify e.source (·.leave e.id) }
  if e.bidirectional && e.target ≠ e.source then
    modify fun n => { n with vertices := n.vertices.modify e.target (·.leave e.id) }
  modify fun n => { n with edges := n.edges.insert e.id e }

def block (id : FeatureId) : InPlace Unit := do
  (← get).checkBlock id
  modify (·.setBlocked id true)

def unblock (id : FeatureId) : InPlace Unit := do
  (← get).checkUnblock id
  modify (·.setBlocked id false)

/-- What is seen of a change that gives a new network or fails, the network of a failure being the old one. -/
def outcome (n : Network) : Except NetworkError Network → Except NetworkError Unit × Network
  | .ok m => (.ok (), m)
  | .error error => (.error error, n)

theorem on_get (rest : Network → InPlace Unit) (n : Network) : (get >>= rest).on n = (rest n).on n := rfl

theorem on_refuse (condition : Bool) (error : NetworkError) (rest : Unit → InPlace Unit) (n : Network) :
    (refuse condition error >>= rest).on n = if condition then (.error error, n) else (rest ()).on n := by
  cases condition <;> rfl

theorem on_addEdge (e : Edge) (n : Network) : (addEdge e).on n = outcome n (n.addEdge e) := by
  unfold addEdge Network.addEdge
  rw [on_get, on_refuse, on_refuse, on_refuse, on_refuse]
  split
  · rfl
  · split
    · rfl
    · split
      · rfl
      · split
        · rfl
        · -- All checks are passed; what is left is to list the edge.
          unfold listEdge outcome
          dsimp only
          split <;> rfl

theorem on_block (id : FeatureId) (n : Network) : (block id).on n = outcome n (n.block id) := by
  unfold block Network.block
  rw [on_get]
  cases n.checkBlock id <;> rfl

theorem on_unblock (id : FeatureId) (n : Network) : (unblock id).on n = outcome n (n.unblock id) := by
  unfold unblock Network.unblock
  rw [on_get]
  cases n.checkUnblock id <;> rfl

end InPlace

/-- What can be done to a network. A scope hides edges and ends. -/
inductive Operation
  | addVertex (id : FeatureId)
  | addEdge (e : Edge)
  | block (id : FeatureId)
  | unblock (id : FeatureId)
  | unblockAll
  | scope (requests : List Hiding.Request)

namespace Operation

def inPlace : Operation → InPlace Unit
  | addVertex id => modify (·.addVertex id)
  | addEdge e => InPlace.addEdge e
  | block id => InPlace.block id
  | unblock id => InPlace.unblock id
  | unblockAll => modify (·.unblockAll)
  | scope requests => modify fun n => (Hiding.opened n requests).close

/-- The network after an operation, unless it fails. -/
def carriedOut (n : Network) : Operation → Except NetworkError Network
  | addVertex id => .ok (n.addVertex id)
  | addEdge e => n.addEdge e
  | block id => n.block id
  | unblock id => n.unblock id
  | unblockAll => .ok n.unblockAll
  | scope requests => .ok (Hiding.opened n requests).close

/-- The edges that an operation adds if it succeeds. -/
def edges : Operation → List Edge
  | addEdge e => [e]
  | _ => []

/-- An operation in place ends in what it gives, or in an error and the network that it began with. -/
theorem on_inPlace (op : Operation) (n : Network) : op.inPlace.on n = InPlace.outcome n (op.carriedOut n) := by
  cases op with
  | addEdge e => exact InPlace.on_addEdge e n
  | block id => exact InPlace.on_block id n
  | unblock id => exact InPlace.on_unblock id n
  | addVertex _ | unblockAll | scope _ => rfl

theorem unchanged_of_error {op : Operation} {n m : Network} {error : NetworkError}
    (failed : op.inPlace.on n = (.error error, m)) : m = n := by
  rw [on_inPlace] at failed
  cases done : op.carriedOut n with
  | ok _ => simp [done, InPlace.outcome] at failed
  | error _ => exact (Prod.mk.inj (done ▸ failed)).2.symm

end Operation

variable {n m : Network} {accepted : List Edge}

/-- A network with the edges that were accepted on the way to it, the first one first. -/
structure Holds (n : Network) (accepted : List Edge) : Prop where
  grown : n.Grown (accepted.map (·.id))
  edges {id e} : n.edge? id = some e ↔ e ∈ accepted ∧ e.id = id

theorem holds_empty : Network.empty.Holds [] where
  grown := .empty
  edges := by simp [Network.empty, edge?]

theorem Holds.addEdge {e : Edge} (holds : n.Holds accepted) (done : n.addEdge e = .ok m) :
    m.Holds (accepted ++ [e]) where
  grown := by
    rw [List.map_append]
    exact holds.grown.addEdge done
  edges := by
    intro id f
    rw [edge?_addEdge_eq_some done, holds.edges, List.mem_append, List.mem_singleton, or_and_right, or_comm]

theorem Holds.addVertex (holds : n.Holds accepted) (id : FeatureId) : (n.addVertex id).Holds accepted where
  grown := holds.grown.addVertex id
  edges := by
    intro key e
    rw [edge?_addVertex, holds.edges]

/-- What one operation preserves: its edge, if it has one, is accepted after those before it. -/
theorem Holds.carriedOut {op : Operation} (holds : n.Holds accepted) (done : op.carriedOut n = .ok m) :
    m.Holds (accepted ++ op.edges) := by
  cases op with
  | addEdge e => exact holds.addEdge done
  | addVertex id =>
    cases done
    simpa [Operation.edges] using holds.addVertex id
  | block id =>
    obtain ⟨_, rfl⟩ := block_ok_iff.mp done
    simpa [Operation.edges] using Holds.mk (holds.grown.block done) holds.edges
  | unblock id =>
    obtain ⟨_, rfl⟩ := unblock_ok_iff.mp done
    simpa [Operation.edges] using Holds.mk (holds.grown.unblock done) holds.edges
  | unblockAll =>
    cases done
    simpa [Operation.edges] using Holds.mk holds.grown.unblockAll holds.edges
  | scope requests =>
    obtain rfl : n = m := (Hiding.close_opened n requests).symm.trans (Except.ok.inj done)
    simpa [Operation.edges] using holds

theorem Holds.outgoing (holds : n.Holds accepted) (v : FeatureId) :
    n.outgoing v = (accepted.filter (·.Leaves v)).map (·.id) := by
  rw [holds.grown.lists.outgoing, List.filter_map]
  refine congrArg (List.map _) (List.filter_congr fun e member => ?_)
  rw [Function.comp_apply, leaves, holds.edges.mpr ⟨member, rfl⟩, Option.any_some]

/-- A network that was changed in place, and the edges that were accepted on the way. -/
structure History where
  network : Network
  accepted : List Edge

/-- One more operation; an edge is accepted if adding it gives no error. -/
def History.next (h : History) (op : Operation) : History :=
  match op.inPlace.on h.network with
  | (.ok (), n) => ⟨n, h.accepted ++ op.edges⟩
  | (.error _, n) => ⟨n, h.accepted⟩

def history (ops : List Operation) : History := ops.foldl History.next ⟨.empty, []⟩

theorem History.next_holds {h : History} (holds : h.network.Holds h.accepted) (op : Operation) :
    (h.next op).network.Holds (h.next op).accepted := by
  unfold next
  rw [op.on_inPlace]
  cases done : op.carriedOut h.network with
  | ok n => exact holds.carriedOut done
  | error _ => exact holds

theorem history_holds (ops : List Operation) : (history ops).network.Holds (history ops).accepted := by
  induction ops using List.reverseRecOn with
  | nil => exact holds_empty
  | append_singleton ops op ih =>
    rw [history, List.foldl_append]
    exact History.next_holds ih op

/-- What the searches rely on: edges and vertices agree, and every vertex lists the edges that leave it in the
order in which they were accepted. -/
structure Orderly (n : Network) (accepted : List Edge) : Prop where
  ownId {id e} : n.edge? id = some e → e.id = id
  ends {id e} : n.edge? id = some e → n.containsVertex e.source ∧ n.containsVertex e.target
  outgoing (v) : n.outgoing v = (accepted.filter (·.Leaves v)).map (·.id)
  once {id e} (v) : n.edge? id = some e → (n.outgoing v).count id = if e.Leaves v then 1 else 0
  known {id} (v) : id ∈ n.outgoing v → (n.edge? id).isSome

/-- Edges hidden in a scope stay where they are. -/
theorem Holds.orderly (holds : n.Holds accepted) (requests : List Hiding.Request) :
    (Hiding.opened n requests).network.Orderly accepted := by
  have masks := Hiding.masks_opened n requests
  have formed := holds.grown.built.wellFormed.hide masks.vertices masks.edges
  refine ⟨formed.ownId, formed.ends, fun v => ?_, fun {id e} v found => ?_, fun {id} v listed => ?_⟩
  · rw [masks.outgoing, holds.outgoing]
  · have distinct : (n.outgoing v).Nodup := by
      rw [holds.grown.lists.outgoing]
      exact holds.grown.lists.nodup.filter _
    have member : id ∈ n.outgoing v ↔ e.Leaves v := by
      rw [← masks.outgoing, formed.listed, found]
      simp
    rw [masks.outgoing, distinct.count]
    exact if_congr member rfl rfl
  · obtain ⟨e, found, _⟩ := formed.listed.mp listed
    rw [found, Option.isSome_some]

/-- Whatever has been done to a network from the empty one on, and whether or not a scope is open, its edges
and vertices agree. Outside a scope the edges are those accepted, and their costs are costs. Every operation
in place gives the network that it should, or an error; and after an error the network, whichever it was, is
the same. -/
theorem history_orderly (ops : List Operation) :
    (history ops).network.Orderly (history ops).accepted ∧
      (∀ requests, (Hiding.opened (history ops).network requests).network.Orderly (history ops).accepted) ∧
        (∀ id e, (history ops).network.edge? id = some e ↔ e ∈ (history ops).accepted ∧ e.id = id) ∧
          (∀ e ∈ (history ops).accepted, e.cost.isNaN = false ∧ ¬e.cost < Binary64.zero) ∧
            (∀ (op : Operation) (n : Network), op.inPlace.on n = InPlace.outcome n (op.carriedOut n)) ∧
              ∀ (op : Operation) (n m : Network) (error : NetworkError),
                op.inPlace.on n = (.error error, m) → m = n := by
  have holds := history_holds ops
  refine ⟨holds.orderly [], holds.orderly, fun _ _ => holds.edges, fun e member => ?_, Operation.on_inPlace,
    fun _ _ _ _ => Operation.unchanged_of_error⟩
  have cost := holds.grown.built.wellFormed.cost (holds.edges.mpr ⟨member, rfl⟩)
  simpa [isCost] using cost

/-- A loop, an edge both ways, one of an id that is taken, one without an end, and an edge that comes after a
vertex is blocked, with a scope on the way. -/
def tangled : List Operation :=
  [.addVertex 1, .addVertex 2, .addEdge ⟨10, 1, 1, true, .ofInt 1, .ofInt 1⟩,
    .addEdge ⟨11, 1, 2, true, .ofInt 2, .ofInt 2⟩, .addEdge ⟨10, 2, 1, true, .zero, .zero⟩,
    .addEdge ⟨12, 1, 3, false, .zero, .zero⟩, .block 2, .block 2, .scope [.leaving 1, .edge 11],
    .addEdge ⟨9, 2, 1, false, .infinity, .infinity⟩]

/-- In a scope that hides it, the loop is listed once; and an id that is taken leaves all as it is. -/
theorem history_orderly_tangled :
    (history tangled).network.outgoing 1 = [10, 11] ∧ (history tangled).network.outgoing 2 = [11, 9] ∧
      ((Hiding.opened (history tangled).network [.leaving 1]).network.outgoing 1).count 10 = 1 ∧
      (InPlace.addEdge ⟨10, 2, 1, true, .zero, .zero⟩).on (history tangled).network =
        (.error (.duplicateEdge 10), (history tangled).network) := by
  obtain ⟨orderly, hidden, _, _, inPlace, _⟩ := history_orderly tangled
  have first : (history tangled).network.outgoing 1 = [10, 11] := by
    rw [orderly.outgoing]
    decide +kernel
  have second : (history tangled).network.outgoing 2 = [11, 9] := by
    rw [orderly.outgoing]
    decide +kernel
  have loop : (Hiding.opened (history tangled).network [.leaving 1]).network.edge? 10 =
      some ⟨10, 1, 1, true, .infinity, .ofInt 1⟩ := by decide +kernel
  refine ⟨first, second, ((hidden [.leaving 1]).once 1 loop).trans (by decide), ?_⟩
  refine (inPlace (.addEdge ⟨10, 2, 1, true, .zero, .zero⟩) _).trans ?_
  have taken : Operation.carriedOut (history tangled).network (.addEdge ⟨10, 2, 1, true, .zero, .zero⟩) =
      .error (.duplicateEdge 10) := by decide +kernel
  rw [taken]
  rfl

end Network

end FeatureNet
