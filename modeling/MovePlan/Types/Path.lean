import MovePlan.Types.Model

set_option autoImplicit false

namespace MovePlan

/-- The types along a path, from the root to the type of the last field. -/
structure PathTypes where
  root : TypeId
  steps : List TypeId := []
  throughPointer : Bool := false
deriving DecidableEq, Inhabited

namespace PathTypes

def chain (p : PathTypes) : List TypeId := p.root :: p.steps

def leaf (p : PathTypes) : TypeId := p.steps.getLast?.getD p.root

def ancestors (p : PathTypes) : List TypeId := p.chain.dropLast

end PathTypes

namespace TypeTable

/-- The definition behind all pointers and references, and whether there were any. A pointer is
registered after the type that it leads to, so their number is below the size of the table. -/
def pointee (t : TypeTable) : Nat → TypeId → Except TypeError (TypeDef × Bool)
  | 0, id => .error (.unknownType id)
  | depth + 1, id => do
    let d ← t.get id
    match d.kind, d.target with
    | .pointer, some inner | .reference, some inner => return ((← t.pointee depth inner).1, true)
    | _, _ => return (d, false)

def step (t : TypeTable) (id : TypeId) (field : String) : Except TypeError (TypeId × Bool) := do
  let (d, through) ← t.pointee (t.size + 1) id
  match d.fieldNamed? field with
  | some f => .ok (f.type, through)
  | none => .error (.noField d.name field)

def walk (t : TypeTable) (id : TypeId) : List String → Except TypeError (List TypeId × Bool)
  | [] => .ok ([], false)
  | f :: fs => do
    let (next, through) ← t.step id f
    let (rest, later) ← t.walk next fs
    return (next :: rest, through || later)

end TypeTable

def TypeModel.resolvePath (m : TypeModel) (id : TypeId) (path : List String) :
    Except TypeError PathTypes := do
  let (steps, through) ← m.table.walk id path
  return { root := id, steps := steps, throughPointer := through }

end MovePlan
