/-!
The settings of a context. Environment variables override the defaults one by one; a variable
that is empty or zero switches its setting off, any other switches it on.
-/
namespace MethodCache

structure Config where
  /-- Reads of built-in types try the shared tables first. -/
  sharedTier : Bool := true
  /-- Construction is recorded, so that a missing table is noticed. -/
  tracksConstruction : Bool := true
  /-- Tables are checked once the context has started. -/
  checksAtStart : Bool := true
  /-- Tables of classes with one base extend the base's table. -/
  extendsBase : Bool := true
  deriving DecidableEq

namespace Config

/-- Every check on; also the default. -/
def checked : Config := {}

def unchecked : Config := { tracksConstruction := false, checksAtStart := false }

def isOn (text : String) : Bool := text != "" && text != "0"

def setting (env : String → Option String) (name : String) (default : Bool) : Bool :=
  ((env name).map isOn).getD default

/-- The defaults overridden by variables. -/
def ofVariables (env : String → Option String) : Config :=
  let d : Config := {}
  { sharedTier := setting env "DUNDER_SLOTS_SHARED_TIER" d.sharedTier
    tracksConstruction := setting env "DUNDER_SLOTS_TRACK_INIT" d.tracksConstruction
    checksAtStart := setting env "DUNDER_SLOTS_VALIDATE" d.checksAtStart
    extendsBase := setting env "DUNDER_SLOTS_FAST_PATH" d.extendsBase }

def text (c : Config) : String :=
  "SlotCacheConfig \x7b shared_tier: " ++ toString c.sharedTier ++
    ", track_initializing: " ++ toString c.tracksConstruction ++
    ", validate_on_bootstrap: " ++ toString c.checksAtStart ++
    ", fast_path: " ++ toString c.extendsBase ++ " \x7d"

end Config

end MethodCache
