import MovePlan.Numeral

set_option autoImplicit false

namespace MovePlan

structure Span where
  file : Option String := none
  line : Option Int := none
  column : Option Int := none
  endLine : Option Int := none
  endColumn : Option Int := none
deriving DecidableEq, Inhabited

namespace Span

/-- An unknown file leaves the span as it is. -/
def withFile (s : Span) (file : Option String) : Span :=
  match file with
  | none => s
  | some f => { s with file := some f }

/-- A file with an empty name counts as unknown. -/
def fileText? (s : Span) : Option String :=
  s.file.filter (· ≠ "")

def render? (s : Span) : Option String := do
  match s.line with
  | none => return s.fileText?.getD "<unknown>"
  | some l =>
    let line ← Numeral.text? l
    let position ← match s.column with
      | some c => (Numeral.text? c).map fun column => s!"{line}:{column}"
      | none => some line
    match s.fileText? with
    | some f => return s!"{f}:{position}"
    | none => return position

end Span
end MovePlan
