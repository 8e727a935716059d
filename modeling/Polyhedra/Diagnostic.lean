/-!
# Diagnostics

Messages about results that are valid but perhaps not what was asked for: a
filter that selected nothing, a code that names no operator, an argument that
was ignored.
-/

namespace Polyhedra

inductive Severity where
  | warning
  | info
deriving DecidableEq

/-- A message with the stage that raised it. -/
structure Diagnostic where
  severity : Severity
  source : String
  message : String
deriving DecidableEq

namespace Diagnostic

def warning (source message : String) : Diagnostic :=
  ⟨.warning, source, message⟩

def info (source message : String) : Diagnostic :=
  ⟨.info, source, message⟩

end Diagnostic

/-- Diagnostics in the order in which they were raised. -/
abbrev Diagnostics := List Diagnostic

def Diagnostics.hasWarnings (diagnostics : Diagnostics) : Bool :=
  diagnostics.any fun diagnostic => diagnostic.severity == .warning

end Polyhedra
