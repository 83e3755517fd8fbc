import DeferredQuery.Named

/-!
# Logging settings
-/

namespace DeferredQuery

inductive LogFormat where
  | pretty
  | json
  | compact
deriving DecidableEq, Repr

/-- The format of a name; an unknown name stands for the format for reading. -/
def LogFormat.ofName (s : String) : LogFormat :=
  match s with
  | "json" => json
  | "compact" => compact
  | _ => pretty

inductive LogOutput where
  | stdout
  | file
  | both
deriving DecidableEq, Repr

/-- The output of a name; an unknown name stands for the standard output. -/
def LogOutput.ofName (s : String) : LogOutput :=
  match s with
  | "file" => file
  | "both" => both
  | _ => stdout

structure LoggingConfig where
  level : String
  format : String
  output : String
  directory : String
deriving DecidableEq, Repr

namespace LoggingConfig

def standard : LoggingConfig := ⟨"info", "pretty", "stdout", "./logs"⟩

end LoggingConfig

end DeferredQuery
