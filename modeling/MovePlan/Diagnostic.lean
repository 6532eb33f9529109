import MovePlan.Span

set_option autoImplicit false

namespace MovePlan

inductive Severity
  | error
  | warning
  | other (label : String)
deriving DecidableEq, Inhabited

namespace Severity

def label : Severity → String
  | error => "error"
  | warning => "warning"
  | other l => l

def ofLabel (l : String) : Severity :=
  if l = "error" then error else if l = "warning" then warning else other l

end Severity

structure Diagnostic where
  message : String
  code : Option String := none
  /-- The pass that reports: `parser`, `typemodel`, `cfg` or `moves`. -/
  phase : Option String := none
  severity : Severity := .error
  span : Span := {}
  notes : List String := []
deriving DecidableEq, Inhabited

namespace Diagnostic

def isError (d : Diagnostic) : Bool := d.severity = .error

/-- One line, and an indented line for each note. -/
def render? (d : Diagnostic) : Option String := do
  let span ← d.span.render?
  let code := match d.code with
    | none => ""
    | some c => if c = "" then "" else s!"[{c}]"
  let head := s!"{span}: {d.severity.label}{code}: {d.message}"
  return "\n".intercalate (head :: d.notes.map fun n => s!"  note: {n}")

end Diagnostic

def hasErrors (ds : List Diagnostic) : Bool := ds.any Diagnostic.isError

end MovePlan
