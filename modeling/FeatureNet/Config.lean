import FeatureNet.Disk
import FeatureNet.Json.Decode
import FeatureNet.Json.Encode

namespace FeatureNet

open Json

def defaultConfigVersion : String := "analyser_config_v1"

/-- The settings of a session. Every one of them has a default. -/
structure Config where
  version : String
  /-- The most alternatives that may be asked for. -/
  maxCount : Nat
  /-- Whether preparing a network blocks the vertices that the store holds. -/
  restoreBlocked : Bool
  /-- Whether a stored vertex that the network lacks is an error. -/
  strict : Bool
deriving DecidableEq

inductive ConfigError
  | io (cause : Cause)
  | malformed
  | zeroMaxCount
deriving DecidableEq

def ConfigError.message : ConfigError → String
  | io cause => "Failed to read config: " ++ cause.message
  | malformed => "Failed to parse config"
  | zeroMaxCount => "Invalid config: max_k must be at least 1"

namespace Config

def standard : Config where
  version := defaultConfigVersion
  maxCount := 64
  restoreBlocked := true
  strict := false

def decode? (d : Doc) : Option Config := do
  let [version, maxCount, restoreBlocked, strict] ←
    d.fields? ["version", "max_k", "restore_blocked_on_prepare", "strict_bootstrap"] | none
  return {
    version := ← version.orDefault standard.version Doc.string?
    maxCount := ← maxCount.orDefault standard.maxCount Doc.natural?
    restoreBlocked := ← restoreBlocked.orDefault standard.restoreBlocked Doc.bool?
    strict := ← strict.orDefault standard.strict Doc.bool? }

def encode (c : Config) : Value :=
  .object [
    ("version", .text c.version),
    ("max_k", naturalValue c.maxCount),
    ("restore_blocked_on_prepare", .bool c.restoreBlocked),
    ("strict_bootstrap", .bool c.strict)]

def validate (c : Config) : Except ConfigError Config :=
  if c.maxCount = 0 then .error .zeroMaxCount else .ok c

def read (text : String) : Except ConfigError Config :=
  match (Doc.read? text).bind decode? with
  | none => .error .malformed
  | some c => c.validate

def readAt (disk : Disk) (location : Location) : Except ConfigError Config :=
  match disk.read location with
  | .error cause => .error (.io cause)
  | .ok text => read text

/-- Tells under which settings a result came about. -/
def paramsHash (c : Config) : String := c.encode.hashText

end Config

end FeatureNet
