import DeferredQuery.Config.Logging
import DeferredQuery.Yaml.Reader

/-!
# Configuration

Settings come from a file, where one is given, and variables of the environment take precedence
over it.
-/

namespace DeferredQuery

structure CacheConfig where
  enabled : Bool
  /-- The greatest number of plans kept; zero for no limit. -/
  maxEntries : Nat
deriving DecidableEq, Repr

def CacheConfig.standard : CacheConfig := ⟨true, 1000⟩

structure Config where
  cache : CacheConfig
  logging : LoggingConfig
deriving DecidableEq, Repr

inductive ConfigError where
  /-- There is no file to read. -/
  | unreadable
  /-- The file is malformed, or a setting in it has no meaning. -/
  | malformed
  | invalidVariable (name value : String)
deriving DecidableEq, Repr

def ConfigError.message : ConfigError → String
  | unreadable => "Failed to read config file"
  | malformed => "Failed to parse YAML"
  | invalidVariable name value => "Invalid value for " ++ name ++ ": " ++ value

/-! ## Files -/

namespace Yaml

def setting? {α : Type} (read : Yaml → Option α) (standard : α) (members : List (Named Yaml))
    (name : String) : Option α := do
  match ← member? members name with
  | some v => read v
  | none => some standard

def required? {α : Type} (read : Yaml → Option α) (members : List (Named Yaml)) (name : String) :
    Option α := do
  match ← member? members name with
  | some v => read v
  | none => none

end Yaml

def CacheConfig.ofYaml? (y : Yaml) : Option CacheConfig := do
  let members ← y.members?
  let enabled ← Yaml.setting? Yaml.bool? standard.enabled members "enabled"
  let maxEntries ← Yaml.setting? Yaml.nat64? standard.maxEntries members "max_entries"
  return ⟨enabled, maxEntries⟩

def LoggingConfig.ofYaml? (y : Yaml) : Option LoggingConfig := do
  let members ← y.members?
  let level ← Yaml.required? Yaml.text? members "level"
  let format ← Yaml.required? Yaml.text? members "format"
  let output ← Yaml.required? Yaml.text? members "output"
  let directory ← Yaml.required? Yaml.text? members "directory"
  return ⟨level, format, output, directory⟩

namespace Config

def standard : Config := ⟨.standard, .standard⟩

def ofYaml? (y : Yaml) : Option Config := do
  let members ← y.members?
  let cache ← Yaml.setting? CacheConfig.ofYaml? .standard members "cache"
  let logging ← Yaml.setting? LoggingConfig.ofYaml? .standard members "logging"
  return ⟨cache, logging⟩

/-! ## The environment -/

structure Variables where
  enabled : String
  maxEntries : String
  level : String
  format : String
  output : String
  directory : String

def boolVariable? : String → Option Bool
  | "true" => some true
  | "false" => some false
  | _ => none

/-- Decimal digits with an optional plus sign, for a number below `2 ^ 64`. -/
def natVariable? (s : String) : Option Nat :=
  let cs := match s.toList with
    | '+' :: cs => cs
    | cs => cs
  if cs ≠ [] ∧ cs.all Char.isDigit then
    let n := Decimal.ofDigits cs
    if n < Checked.unsignedCount then some n else none
  else none

def override {α : Type} (env : List (Named String)) (name : String) (read : String → Option α)
    (setting : α) : Except ConfigError α :=
  match Named.find? name env with
  | none => .ok setting
  | some s =>
    match read s with
    | some a => .ok a
    | none => .error (.invalidVariable name s)

def withEnv (vars : Variables) (env : List (Named String)) (c : Config) :
    Except ConfigError Config := do
  let enabled ← override env vars.enabled boolVariable? c.cache.enabled
  let maxEntries ← override env vars.maxEntries natVariable? c.cache.maxEntries
  let level ← override env vars.level some c.logging.level
  let format ← override env vars.format some c.logging.format
  let output ← override env vars.output some c.logging.output
  let directory ← override env vars.directory some c.logging.directory
  return ⟨⟨enabled, maxEntries⟩, ⟨level, format, output, directory⟩⟩

def ofEnv (vars : Variables) (env : List (Named String)) : Except ConfigError Config :=
  standard.withEnv vars env

def load (vars : Variables) (env : List (Named String)) (contents : Option String) :
    Except ConfigError Config :=
  match contents with
  | none => .error .unreadable
  | some s =>
    match (Yaml.ofText? s).bind ofYaml? with
    | some c => c.withEnv vars env
    | none => .error .malformed

def loggingEnv (vars : Variables) (c : Config) : List (Named String) :=
  [⟨vars.level, c.logging.level⟩, ⟨vars.format, c.logging.format⟩,
    ⟨vars.output, c.logging.output⟩, ⟨vars.directory, c.logging.directory⟩]

end Config

end DeferredQuery
