import MovePlan.OrderedMap
import MovePlan.Diagnostic
import MovePlan.Types.Table

set_option autoImplicit false

/-!
# Classification of types

A type is move-capable if it has a complete pair of move operations. A nominal type supplies them, or
a struct gets the missing half field by field as soon as one field is move-capable. A move operation
that can fail, a field whose type is violating, and a struct that holds itself by value make a type
violating; a violating type is never move-capable.
-/
namespace MovePlan

inductive MoveOrigin
  | user
  | synthesized
deriving DecidableEq, Inhabited

def MoveOrigin.label : MoveOrigin → String
  | user => "user"
  | synthesized => "synthesized"

inductive FieldMove
  | move
  | bitcopy
deriving DecidableEq, Inhabited

def FieldMove.label : FieldMove → String
  | move => "move"
  | bitcopy => "bitcopy"

structure FieldStep where
  field : String
  type : TypeId
  mode : FieldMove
deriving DecidableEq, Inhabited

/-- The steps of a synthesized operation stand in declaration order; a user operation has none. -/
structure MoveOp where
  origin : MoveOrigin
  canFail : Bool := false
  steps : List FieldStep := []
deriving DecidableEq, Inhabited

structure MoveOps where
  ctor : MoveOp
  assign : MoveOp
deriving DecidableEq, Inhabited

def UserMove.toOp (m : UserMove) : MoveOp := { origin := .user, canFail := m.canFail }

/-- Completes the pair of operations, with the given steps in a half that the user did not supply. -/
def UserOps.complete (ops : UserOps) (steps : List FieldStep) : MoveOps :=
  let synthesized : MoveOp := { origin := .synthesized, steps := steps }
  { ctor := (ops.moveCtor.map UserMove.toOp).getD synthesized
    assign := (ops.moveAssign.map UserMove.toOp).getD synthesized }

def fieldSteps {ε : Type} (capable : TypeId → Except ε Bool) : List Field → Except ε (List FieldStep)
  | [] => .ok []
  | f :: fs => do
    let c ← capable f.type
    let rest ← fieldSteps capable fs
    return { field := f.name, type := f.type, mode := if c then .move else .bitcopy } :: rest

def TypeTable.synthesize (t : TypeTable) (id : TypeId) (capable : TypeId → Except TypeError Bool) :
    Except TypeError MoveOps := do
  let d ← t.get id
  let steps ← fieldSteps capable d.fields
  return d.ops.complete steps

structure TypeFacts where
  moveCapable : Bool := false
  violating : Bool := false
  needsDestroy : Bool := false
  ops : Option MoveOps := none
deriving DecidableEq, Inhabited

/-- Copied bit by bit, with nothing to destroy. -/
def TypeFacts.ordinary : TypeFacts := {}

structure Classification where
  facts : OrderedMap TypeId TypeFacts := .empty
  diagnostics : List Diagnostic := []

namespace Classification

def report (c : Classification) (code message : String) (span : Span) : Classification :=
  { c with diagnostics := c.diagnostics ++
      [{ message := message, code := some code, phase := some "typemodel", span := span }] }

def failingMoves (d : TypeDef) : List (String × UserMove) :=
  let failing (what : String) (m : Option UserMove) :=
    (m.filter UserMove.canFail).toList.map fun m => (what, m)
  failing "move constructor" d.ops.moveCtor ++ failing "move assignment" d.ops.moveAssign

def reportFailing (c : Classification) (d : TypeDef) : Classification :=
  (failingMoves d).foldl (fun c m =>
    c.report "E_MOVE_CAN_FAIL" s!"{m.1} of '{d.name}' can fail; move operations must not raise"
      (if m.2.span.line.isSome then m.2.span else d.ops.span)) c

def hasUserMove (d : TypeDef) : Bool := d.ops.moveCtor.isSome || d.ops.moveAssign.isSome

def classifyForeign (d : TypeDef) (c : Classification) : Classification × TypeFacts :=
  let c := c.reportFailing d
  if !(failingMoves d).isEmpty then
    (c, { violating := true, needsDestroy := d.ops.destructor })
  else if !hasUserMove d then (c, { needsDestroy := d.ops.destructor })
  else (c, { moveCapable := true, needsDestroy := d.ops.destructor, ops := some (d.ops.complete []) })

structure FieldSummary where
  violating : Bool := false
  anyCapable : Bool := false
  needsDestroy : Bool
deriving DecidableEq, Inhabited

def isCapable (c : Classification) (id : TypeId) : Bool :=
  ((c.facts.get? id).map TypeFacts.moveCapable).getD false

/-- Folds the fields of a struct: a field of a type that is being classified closes a cycle. -/
def foldFields (t : TypeTable) (d : TypeDef) (busy : List TypeId)
    (classify : TypeId → Classification → Classification × TypeFacts) :
    List Field → Classification → FieldSummary → Classification × FieldSummary
  | [], c, s => (c, s)
  | f :: fs, c, s =>
    let fieldType := ((t.get? f.type).map TypeDef.name).getD ""
    if f.type ∈ busy then
      foldFields t d busy classify fs
        (c.report "E_RECURSIVE_BY_VALUE"
          s!"struct '{d.name}' field '{f.name}' holds '{fieldType}' by value, forming a cycle" d.ops.span)
        { s with violating := true }
    else
      let (c, facts) := classify f.type c
      let c := if facts.violating then
          c.report "E_FIELD_MOVE_CAN_FAIL"
            s!"struct '{d.name}' field '{f.name}' has type '{fieldType}' whose move operations are invalid"
            d.ops.span
        else c
      foldFields t d busy classify fs c
        { violating := s.violating || facts.violating
          anyCapable := s.anyCapable || facts.moveCapable
          needsDestroy := s.needsDestroy || facts.needsDestroy }

def concludeStruct (d : TypeDef) (c : Classification) (s : FieldSummary) :
    Classification × TypeFacts :=
  let c := c.reportFailing d
  if s.violating || !(failingMoves d).isEmpty then
    (c, { violating := true, needsDestroy := s.needsDestroy })
  else if !(hasUserMove d || s.anyCapable) then (c, { needsDestroy := s.needsDestroy })
  else
    let steps := d.fields.map fun f : Field =>
      ({ field := f.name, type := f.type,
         mode := if c.isCapable f.type then .move else .bitcopy } : FieldStep)
    (c, { moveCapable := true, needsDestroy := s.needsDestroy, ops := some (d.ops.complete steps) })

/-- Classifies a type depth first. The types in `busy` are being classified, so the depth never
exceeds the number of types. -/
def classify (t : TypeTable) : Nat → List TypeId → TypeId → Classification → Classification × TypeFacts
  | 0, _, _, c => (c, .ordinary)
  | depth + 1, busy, id, c =>
    match c.facts.get? id with
    | some facts => (c, facts)
    | none =>
      let result : Classification × TypeFacts := match t.get? id with
        | none => (c, .ordinary)
        | some d =>
          match d.kind with
          | .struct =>
            let (c, s) := foldFields t d (id :: busy) (classify t depth (id :: busy)) d.fields c
              { needsDestroy := d.ops.destructor }
            concludeStruct d c s
          | .foreign => classifyForeign d c
          | _ => (c, .ordinary)
      -- the facts are kept, so every type is classified and reported once
      ({ result.1 with facts := result.1.facts.put id result.2 }, result.2)

end Classification

/-- The facts of every type of a table. Facts are fixed when the model is built; declarations are
read from the table. -/
structure TypeModel where
  table : TypeTable
  facts : OrderedMap TypeId TypeFacts
  diagnostics : List Diagnostic

namespace TypeModel

def build (t : TypeTable) : TypeModel :=
  let c := t.ids.foldl (fun c id => (Classification.classify t (t.size + 1) [] id c).1)
    ({} : Classification)
  { table := t, facts := c.facts, diagnostics := c.diagnostics }

def factsOf (m : TypeModel) (id : TypeId) : Except TypeError TypeFacts :=
  match m.facts.get? id with
  | some f => .ok f
  | none => .error (.notClassified id)

def isMoveCapable (m : TypeModel) (id : TypeId) : Except TypeError Bool :=
  return (← m.factsOf id).moveCapable

def isViolating (m : TypeModel) (id : TypeId) : Except TypeError Bool :=
  return (← m.factsOf id).violating

/-- The end of a scope owes something: the type's own destructor, or that of a field. -/
def needsDestroy (m : TypeModel) (id : TypeId) : Except TypeError Bool :=
  return (← m.factsOf id).needsDestroy

def moveOps (m : TypeModel) (id : TypeId) : Except TypeError (Option MoveOps) :=
  return (← m.factsOf id).ops

def hasUserMoveCtor (m : TypeModel) (id : TypeId) : Except TypeError Bool :=
  return (← m.table.get id).ops.moveCtor.isSome

def hasUserMoveAssign (m : TypeModel) (id : TypeId) : Except TypeError Bool :=
  return (← m.table.get id).ops.moveAssign.isSome

def hasDestructor (m : TypeModel) (id : TypeId) : Except TypeError Bool :=
  return (← m.table.get id).ops.destructor

def typeName (m : TypeModel) (id : TypeId) : Except TypeError String :=
  return (← m.table.get id).name

def synthesize (m : TypeModel) (id : TypeId) : Except TypeError MoveOps :=
  m.table.synthesize id m.isMoveCapable

end TypeModel
end MovePlan
