import MovePlan.Flow.Dominator
import MovePlan.Plan.UseAfterMove

set_option autoImplicit false

/-!
# Destruction at the end of a lifetime

A place is never destroyed if a move of it dominates every end of its lifetime, or if no walk comes
to an end with the value alive. It is always destroyed if every walk does. Otherwise a flag tells at
run time. A moved field path has a plan of its own, and its binding then destroys the rest only.
-/
namespace MovePlan.Function

def visitInside (f : Function) (b : Binding) : Nat → List BlockId → List BlockId → List BlockId
  | 0, _, seen => seen
  | _ + 1, [], seen => seen
  | fuel + 1, id :: stack, seen =>
    if id ∈ seen then visitInside f b fuel stack seen
    else match f.block? id with
      | none => visitInside f b fuel stack seen
      | some blk => visitInside f b fuel (blk.successors.filter b.inRegion ++ stack) (id :: seen)

def declares (name : String) (s : Site) : Bool := s.binding = some name && s.kind = .decl

/-- The site is on every walk to every end of the lifetime, and no declaration can follow it. -/
def dominatesExits (f : Function) (d : Dominators) (b : Binding) (s : Site)
    (exits : List ScopeExit) : Except Fault Bool := do
  if !exits.all fun x => d.dominates s.block x.block then return false
  let blk ← f.getBlock s.block
  if (entriesFrom blk.sites (s.index + 1)).any (declares b.name) then return false
  let later := f.visitInside b (f.edgeCount + blk.edges.length + 1)
    (blk.successors.filter b.inRegion) []
  return !later.any fun id => (f.sitesAt id).any (declares b.name)

def declSite? (f : Function) (b : Binding) : Option SiteId :=
  if b.isParam || f.captures.contains b.name then none
  else ((f.sitesOf b.name).find? (·.kind = .decl)).map Site.id

def reinits (f : Function) (r : PlaceStates) : List Site :=
  (f.sitesOf r.place.binding).filter fun s =>
    s.kind = .write && r.place.coveredBy s.path &&
      (r.stateBefore s.id = .moved || r.stateBefore s.id = .maybe)

def dropFlag (f : Function) (b : Binding) (place : Place) (moves reinits : List Site) : DropFlag :=
  { name := s!"{place.render}.live"
    place := place
    declSite := f.declSite? b
    clears := moves.map fun s =>
      { site := s.id, block := s.block,
        beforeCall := match s.target with
          | some t => t.kind = .callArg && t.mayFail
          | none => false }
    sets := reinits.map fun s => { site := s.id, block := s.block } }

def disposalFromStates (f : Function) (b : Binding) (moves : List Site) (r : PlaceStates) :
    Disposal × DestroyReason :=
  let exits := r.exitStates.map Prod.snd
  let reinits := f.reinits r
  let owed := exits.filter fun st => st = .valid || st = .maybe
  -- a write over a value that may be gone asks a flag, even if all ends of the lifetime agree
  let maybeAtWrite := reinits.any fun s => r.stateBefore s.id = .maybe
  if owed.isEmpty then
    (.never, if moves.isEmpty then .noLiveExit else .movedOnAllExits)
  else if exits.all (· = .valid) && !maybeAtWrite then
    (.always, if moves.isEmpty then .neverMoved else .validOnAllExits)
  else (.guarded (f.dropFlag b r.place moves reinits), .mixedExits)

def anyDominates (f : Function) (d : Dominators) (b : Binding) (exits : List ScopeExit) :
    List Site → Except Fault Bool
  | [] => .ok false
  | s :: rest => do
    if ← f.dominatesExits d b s exits then return true
    anyDominates f d b exits rest

/-- The plan of a place whose type owes destruction, where `movedSites` are the moves of its
binding. -/
def placePlan (f : Function) (states : StatesOf) (d : Dominators) (b : Binding) (place : Place)
    (type : TypeId) (movedSites : List Site) : Except Fault DestructionPlan := do
  let placeMoves := movedSites.filter (·.reaches place)
  let r ← states place
  let exits := r.exitStates.map Prod.fst
  -- a write after the move gives a value back, and then no move settles the ends
  let dominated ← if placeMoves.isEmpty || !(f.reinits r).isEmpty || exits.isEmpty then .ok false
    else f.anyDominates d b exits placeMoves
  if dominated then
    return { type := type, disposal := .never, reason := .dominatingMove }
  let (disposal, reason) := f.disposalFromStates b placeMoves r
  return { type := type, disposal := disposal, reason := reason }

def fieldPlan (f : Function) (m : TypeModel) (states : StatesOf) (d : Dominators) (name : String)
    (b : Binding) (movedSites : List Site) (path : Path) : Except Fault (Place × DestructionPlan) := do
  let leaf := (← liftType (m.resolvePath b.type path)).leaf
  let place : Place := { binding := name, path := path }
  if ← liftType (m.needsDestroy leaf) then
    return (place, ← f.placePlan states d b place leaf movedSites)
  return (place, { type := leaf, disposal := .never, reason := .trivial })

def bindingPlans (f : Function) (m : TypeModel) (states : StatesOf) (moved : List Site)
    (d : Dominators) (name : String) (b : Binding) : Except Fault (List (Place × DestructionPlan)) := do
  let place : Place := { binding := name }
  let never (reason : DestroyReason) : List (Place × DestructionPlan) :=
    [(place, { type := b.type, disposal := .never, reason := reason })]
  match f.ownership b with
  | .borrowed => return never .borrowed
  | .captured => return never .captured
  | .owned =>
    if !(← liftType (m.needsDestroy b.type)) then return never .trivial
    let movedSites := moved.filter (·.binding = some name)
    let paths := sortBy pathLe (distinct ((movedSites.map Site.path).filter (!·.isEmpty)))
    let root ← f.placePlan states d b place b.type movedSites
    let fields ← paths.mapM (f.fieldPlan m states d name b movedSites)
    return (place, { root with isPartial := !paths.isEmpty }) :: fields

def destructionPlans (f : Function) (m : TypeModel) (moves : List SiteId) :
    Except Fault (OrderedMap Place DestructionPlan) := do
  let g := f.graph
  let d := f.dominators
  let moved ← (sortInts moves).mapM f.getSite
  let plans ← (sortNames f.bindings.keys).mapM fun name => do
    f.bindingPlans m (f.placeStatesIn g moves) moved d name (← f.getBinding name)
  return OrderedMap.ofList plans.flatten

end MovePlan.Function
