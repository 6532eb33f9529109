import MovePlan.Plan.Decision

set_option autoImplicit false

namespace MovePlan

/-- A write needs a plan if its type can be moved or owes destruction. -/
def TypeModel.assignRelevant (m : TypeModel) (type : TypeId) : Except Fault Bool := do
  if ← liftType (m.isMoveCapable type) then return true
  liftType (m.needsDestroy type)

namespace Function

/-- The move-out just before a write, if it moves into the binding that is written. -/
def assignSource (f : Function) (s : Site) : Except Fault (Option SiteId) :=
  if s.index = 0 then .ok none
  else do
    let blk ← f.getBlock s.block
    let prev ← optionOr .noPosition (entryAt? blk.sites (s.index - 1))
    match prev.target with
    | some t =>
      if prev.kind = .moveOut && t.kind = .assign && t.dest = s.binding then return some prev.id
      return none
    | none => return none

/-- The flag of the most specific guarded place that contains `place`. -/
def coveringFlag (place : Place) (destruction : OrderedMap Place DestructionPlan) : Option String :=
  (destruction.entries.foldl (fun (best : Option (Place × DropFlag)) e =>
    match e.2.disposal.flag? with
    | none => best
    | some flag =>
      if e.1.binding ≠ place.binding || !place.coveredBy e.1.path then best
      else match best with
        | none => some (e.1, flag)
        | some (p, _) => if e.1.path.length > p.path.length then some (e.1, flag) else best)
    none).map (·.2.name)

def disposeOld (needsDestroy : Bool) (state : MoveState) : DestroyKind :=
  if !needsDestroy then .never
  else match state with
    | .moved | .uninit | .unreached => .never
    | .valid => .always
    | .maybe => .guarded

/-- The plan of one write; a write of no consequence has none. -/
def assignPlan? (f : Function) (m : TypeModel) (settings : Settings) (states : StatesOf)
    (destruction : OrderedMap Place DestructionPlan) (s : Site) (name : String) :
    Except Fault (Option (SiteId × AssignPlan)) := do
  let b ← f.getBinding name
  match m.leafType? b s.path with
  | none => return none
  | some leaf =>
    if !(← m.assignRelevant leaf) then return none
    let place : Place := { binding := name, path := s.path }
    let state := (← states place).stateBefore s.id
    let dispose := disposeOld (← liftType (m.needsDestroy leaf)) state
    return some (s.id, {
      place := place
      order := if dispose ≠ .never || state = .valid then settings.assignOrder
        else .destroyThenConstruct
      destState := state
      dispose := dispose
      flag := if dispose = .guarded then coveringFlag place destruction else none
      sourceSite := ← f.assignSource s })

def assignPlans (f : Function) (m : TypeModel) (settings : Settings) (moves : List SiteId)
    (destruction : OrderedMap Place DestructionPlan) : Except Fault (OrderedMap SiteId AssignPlan) := do
  let g := f.graph
  let plans ← (f.allSites.filter (·.kind = .write)).mapM fun s =>
    match s.binding with
    | none => .ok none
    | some name => f.assignPlan? m settings (f.placeStatesIn g moves) destruction s name
  return OrderedMap.ofList (plans.filterMap id)

end Function
end MovePlan
