import MovePlan.Flow.Fault
import MovePlan.Flow.Fixpoint
import MovePlan.Flow.Graph

set_option autoImplicit false

/-!
# Move states

Which conditions a place may be in at a point of a function, over all walks from the entry to it. A
walk starts with the value alive for parameters and captured bindings. A declaration and a write that
covers the place make it alive, a covering move takes the value away, and stepping into the region
from outside starts with an undeclared binding.
-/
namespace MovePlan

/-- The condition of a place, or the summary of several conditions. -/
inductive MoveState
  /-- No walk comes to the point. -/
  | unreached
  | uninit
  | valid
  | moved
  /-- Alive on some walks only. -/
  | maybe
deriving DecidableEq, Inhabited

namespace MoveState

def label : MoveState → String
  | unreached => "unreached"
  | uninit => "uninit"
  | valid => "valid"
  | moved => "moved"
  | maybe => "maybe"

def ofLabel? (l : String) : Option MoveState :=
  [unreached, uninit, valid, moved, maybe].find? (·.label = l)

def summarize (states : List MoveState) : MoveState :=
  if states.isEmpty then unreached
  else if states.contains valid then if states.all (· = valid) then valid else maybe
  else if states.contains moved then moved
  else uninit

def join (a b : MoveState) : MoveState :=
  if a = unreached then b
  else if b = unreached ∨ a = b then a
  else if a = maybe ∨ b = maybe ∨ a = valid ∨ b = valid then maybe
  else moved

end MoveState

/-- A set of the three conditions that a single walk can leave a place in. -/
structure StateSet where
  moved : Bool := false
  uninit : Bool := false
  valid : Bool := false
deriving DecidableEq, Inhabited

namespace StateSet

def empty : StateSet := {}
def onlyMoved : StateSet := { moved := true }
def onlyUninit : StateSet := { uninit := true }
def onlyValid : StateSet := { valid := true }

def union (a b : StateSet) : StateSet :=
  { moved := a.moved || b.moved, uninit := a.uninit || b.uninit, valid := a.valid || b.valid }

def toList (s : StateSet) : List MoveState :=
  (if s.moved then [.moved] else []) ++ (if s.uninit then [.uninit] else []) ++
    (if s.valid then [.valid] else [])

def summary (s : StateSet) : MoveState := MoveState.summarize s.toList

end StateSet

/-- The end of a block where a lifetime ends: by a return, or on an edge that leaves the region. -/
structure ScopeExit where
  block : BlockId
  next : Option BlockId
deriving DecidableEq, Inhabited

structure PlaceStates where
  place : Place
  before : List (SiteId × StateSet) := []
  after : List (SiteId × StateSet) := []
  exits : OrderedMap ScopeExit StateSet := .empty

abbrev StatesOf := Place → Except Fault PlaceStates

namespace PlaceStates

def setBefore (r : PlaceStates) (id : SiteId) : StateSet := (lastWrite id r.before).getD .empty

def stateBefore (r : PlaceStates) (id : SiteId) : MoveState := (r.setBefore id).summary

def mayBeMovedBefore (r : PlaceStates) (id : SiteId) : Bool := (r.setBefore id).moved

def exitStates (r : PlaceStates) : List (ScopeExit × MoveState) :=
  r.exits.entries.map fun e => (e.1, e.2.summary)

end PlaceStates

namespace Function

def scopeExits (f : Function) (g : BlockGraph) (b : Binding) : List ScopeExit :=
  (f.sortedBlocks.filter fun e => g.reached.contains e.1 && b.inRegion e.1).flatMap fun e =>
    if e.2.isExit then [{ block := e.1, next := none }]
    else (e.2.edges.filter fun x => !b.inRegion x.dst).map fun x => { block := e.1, next := some x.dst }

end Function

def stateAfterSite (moves : List SiteId) (place : Place) (s : Site) (states : StateSet) : StateSet :=
  if s.binding ≠ some place.binding then states
  else match s.kind with
    | .decl => .onlyValid
    | .write => if place.coveredBy s.path then .onlyValid else states
    | .moveOut => if moves.contains s.id && place.coveredBy s.path then .onlyMoved else states
    | _ => states

def statesAlong (moves : List SiteId) (place : Place) :
    List Site → StateSet → List (SiteId × StateSet × StateSet)
  | [], _ => []
  | s :: rest, states =>
    let after := stateAfterSite moves place s states
    if s.binding = some place.binding then
      (s.id, states, after) :: statesAlong moves place rest after
    else statesAlong moves place rest after

namespace Function

/-- The conditions at the start of a block in the region, from those at the end of its reachable
predecessors. -/
def statesAtEntry (f : Function) (g : BlockGraph) (place : Place) (b : Binding)
    (out : BlockId → StateSet) (id : BlockId) : StateSet :=
  let start := if id = f.entry then
      if b.isParam || f.captures.contains place.binding then .onlyValid else .onlyUninit
    else .empty
  (g.reachedPreds id).foldl
    (fun acc p => acc.union (if b.inRegion p then out p else .onlyUninit)) start

def statesStep (f : Function) (g : BlockGraph) (moves : List SiteId) (place : Place) (b : Binding)
    (out : BlockId → StateSet) (id : BlockId) : StateSet :=
  -- no walk comes to an unreached block, so its set stays empty
  if !g.reached.contains id then out id
  else if !b.inRegion id then .onlyUninit
  else (f.sitesAt id).foldl (fun states s => stateAfterSite moves place s states)
    (f.statesAtEntry g place b out id)

def statesAtEnd (f : Function) (g : BlockGraph) (moves : List SiteId) (place : Place) (b : Binding) :
    ValueTable BlockId StateSet :=
  -- a sweep that changes something adds one of the three conditions to some block
  (ValueTable.fill g.order fun _ => StateSet.empty).settle .empty (f.statesStep g moves place b)
    g.order (3 * g.order.length + 1)

def placeStatesIn (f : Function) (g : BlockGraph) (moves : List SiteId) (place : Place) :
    Except Fault PlaceStates := do
  let b ← f.getBinding place.binding
  let ends := f.statesAtEnd g moves place b
  let inside := g.order.filter fun id => g.reached.contains id && b.inRegion id
  let along := inside.flatMap fun id =>
    statesAlong moves place (f.sitesAt id) (f.statesAtEntry g place b (ends.at? .empty) id)
  return {
    place := place
    before := along.map fun e => (e.1, e.2.1)
    after := along.map fun e => (e.1, e.2.2)
    exits := OrderedMap.ofList ((f.scopeExits g b).map fun x => (x, ends.at? .empty x.block)) }

def placeStates (f : Function) (moves : List SiteId) (place : Place) : Except Fault PlaceStates :=
  f.placeStatesIn f.graph moves place

end Function
end MovePlan
