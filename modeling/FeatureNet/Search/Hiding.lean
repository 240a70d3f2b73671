import FeatureNet.IdSet
import FeatureNet.Network

namespace FeatureNet

/-- A scope in which the edges hidden cost infinity, so that no cheapest path takes them. It remembers
what they cost, and closing it puts that back. -/
structure Hiding where
  network : Network
  /-- The edges hidden and their own costs, the latest first. -/
  ownCosts : List (FeatureId × Binary64)
  /-- Every id asked to be hidden, whether or not the network has such an edge. -/
  named : IdSet

namespace Hiding

def ofNetwork (network : Network) : Hiding := ⟨network, [], .empty⟩

/-- Hides an edge. An edge named before, or unknown, is left alone. -/
def hide (h : Hiding) (edge : FeatureId) : Hiding :=
  if edge ∈ h.named then h
  else
    let h := { h with named := h.named.insert edge }
    match h.network.edgeCost? edge with
    | none => h
    | some cost =>
      { h with
        network := h.network.setCost edge Binary64.infinity
        ownCosts := (edge, cost) :: h.ownCosts }

/-- Hides every edge that leaves a vertex. -/
def hideOutgoing (h : Hiding) (v : FeatureId) : Hiding := (h.network.outgoing v).foldl hide h

/-- How many edges are hidden. -/
def size (h : Hiding) : Nat := h.ownCosts.length

def isEmpty (h : Hiding) : Bool := h.ownCosts.isEmpty

/-- The network with every hidden edge's own cost put back, the latest hidden first. -/
def close (h : Hiding) : Network :=
  h.ownCosts.foldl (fun n own => n.setCost own.1 own.2) h.network

end Hiding

end FeatureNet
