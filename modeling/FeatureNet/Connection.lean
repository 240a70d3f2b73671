import FeatureNet.Binary64
import FeatureNet.FeatureId

namespace FeatureNet

inductive Direction
  | bidirectional
  | sourceToTarget
  | targetToSource
deriving DecidableEq, Inhabited

namespace Direction

/-- The direction of a storage code: 1 and 2 are one-way, every other code is both ways. -/
def ofCode (code : Int) : Direction :=
  if code = 1 then sourceToTarget else if code = 2 then targetToSource else bidirectional

def code : Direction → Int
  | bidirectional => 0
  | sourceToTarget => 1
  | targetToSource => 2

def name : Direction → String
  | bidirectional => "bidirectional"
  | sourceToTarget => "source_to_target"
  | targetToSource => "target_to_source"

def all : List Direction := [bidirectional, sourceToTarget, targetToSource]

def ofName? (name : String) : Option Direction := all.find? fun d => d.name = name

theorem ofCode_code (d : Direction) : ofCode d.code = d := by cases d <;> rfl

theorem ofName?_name (d : Direction) : ofName? d.name = some d := by cases d <;> decide

end Direction

/-- A connection as the network layer supplies it: two end features and the connector between them, with
the direction in which it may be travelled. -/
structure Connection where
  source : FeatureId
  target : FeatureId
  connector : FeatureId
  direction : Direction
  cost : Binary64
  /-- The cost the other way; it is carried along and never travelled. -/
  inverseCost : Binary64
deriving DecidableEq

namespace Connection

/-- A connection from source to target of one cost. -/
def directed (source target connector : FeatureId) (cost : Binary64) : Connection :=
  ⟨source, target, connector, .sourceToTarget, cost, cost⟩

/-- A connection both ways of one cost. -/
def bidirectional (source target connector : FeatureId) (cost : Binary64) : Connection :=
  ⟨source, target, connector, .bidirectional, cost, cost⟩

end Connection

end FeatureNet
