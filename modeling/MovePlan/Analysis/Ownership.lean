import MovePlan.Flow.Function

set_option autoImplicit false

namespace MovePlan

inductive Ownership
  | owned
  | borrowed
  /-- The binding belongs to the enclosing function. -/
  | captured
deriving DecidableEq, Inhabited

def Ownership.label : Ownership → String
  | owned => "owned"
  | borrowed => "borrowed"
  | captured => "captured"

inductive Passing
  | move
  | copy
  | plainRef
  | moveRef
deriving DecidableEq, Inhabited

def Passing.label : Passing → String
  | move => "move"
  | copy => "copy"
  | plainRef => "plain_ref"
  | moveRef => "move_ref"

namespace Function

def positionOf (x : String) : List String → Int → Option Int
  | [], _ => none
  | y :: ys, i => if y = x then some i else positionOf x ys (i + 1)

def isForwardedParam (f : Function) (name : String) : Bool :=
  match positionOf name f.params 0 with
  | some i => f.forwards.contains i
  | none => false

/-- Who owns a binding, by its own name. -/
def ownership (f : Function) (b : Binding) : Ownership :=
  if f.captures.contains b.name then .captured
  else if b.isParam && (b.mode = .plainRef || b.mode = .moveRef && f.isForwardedParam b.name) then
    .borrowed
  else .owned

/-- A forwarded parameter is returned whole, as the move reference that it is. -/
def returnsForwarded (f : Function) (s : Site) (t : Target) : Bool :=
  match s.binding.bind f.binding? with
  | none => false
  | some b =>
    s.path.isEmpty && t.kind = .result && t.mode = .moveRef && f.isForwardedParam b.name

end Function

/-- How a value goes into a target and whether its ownership goes along, where `canMove` says whether
the source may be moved. -/
def Target.passing (t : Target) (canMove : Bool) : Passing × Bool :=
  match t.mode with
  | .plainRef => (.plainRef, false)
  | .moveRef =>
    if t.isForwardingCall then (.moveRef, false)
    else if canMove then (.moveRef, true) else (.copy, false)
  | .value =>
    if t.isForwardingCall then (.moveRef, false)
    else if canMove then (.move, true) else (.copy, false)

end MovePlan
