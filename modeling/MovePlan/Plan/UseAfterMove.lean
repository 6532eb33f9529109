import MovePlan.Plan.Basic

set_option autoImplicit false

namespace MovePlan

def Site.reaches (s : Site) (p : Place) : Bool :=
  s.binding = some p.binding && p.coveredBy s.path

namespace Function

def explicitMoves (f : Function) (moves : List SiteId) : Except Fault (List Site) := do
  return (← (sortInts moves).mapM f.getSite).filter Site.explicit

/-- The places that explicit moves take the value of, sorted by their text. -/
def movedPlaces (explicitMoves : List Site) : List Place :=
  sortBy (fun a b => nameLe a.render b.render)
    (distinct (explicitMoves.filterMap fun s => s.binding.map fun n => { binding := n, path := s.path }))

/-- The access uses a part of the place while a walk may have moved it. -/
def isUseOfMoved (r : PlaceStates) (s : Site) : Bool :=
  s.isAccess && !(s.kind = .write && r.place.coveredBy s.path) && r.place.overlaps s.path &&
    r.mayBeMovedBefore s.id

def moveNote? (p : Place) (s : Site) : Option String := do
  let span ← s.span.render?
  let site ← s.describe?
  return s!"'{p.render}' moved at {span} ({site})"

def goneWord (r : PlaceStates) (s : Site) : String :=
  if r.stateBefore s.id = .moved then "moved" else "possibly moved"

def useAfterMove? (f : Function) (movers : List Site) (r : PlaceStates) (s : Site) :
    Option Diagnostic := do
  let site ← s.describe?
  let notes ← movers.mapM (moveNote? r.place)
  return {
    message := s!"use of {goneWord r s} value '{r.place.render}' in '{f.name}' ({site})"
    code := some "E_USE_AFTER_MOVE"
    phase := some "moves"
    span := s.span
    notes := notes }

def checkUseAfterMove (f : Function) (moves : List SiteId) : Except Fault (List Diagnostic) := do
  let g := f.graph
  let explicitMoves ← f.explicitMoves moves
  let reports ← (movedPlaces explicitMoves).mapM fun place => do
    let r ← f.placeStatesIn g moves place
    let movers := explicitMoves.filter (·.reaches place)
    ((f.sitesOf place.binding).filter (isUseOfMoved r)).mapM fun s =>
      optionOr .longNumber (f.useAfterMove? movers r s)
  return reports.flatten

end Function
end MovePlan
