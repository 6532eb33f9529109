import MovePlan.Plan.Assignment

set_option autoImplicit false

namespace MovePlan.Function

def fallbackDecision (f : Function) (s : Site) : UseDecision :=
  if s.kind ≠ .moveOut then { kind := .plainRefPass, reason := .inPlace }
  else match s.target with
    | none => { kind := .constructByCopy, reason := .fallback }
    | some t =>
      if t.mode = .plainRef then { kind := .plainRefPass, reason := .plainRef }
      else if t.isForwardingCall then { kind := .moveRefPass, reason := .forwarding }
      else if f.returnsForwarded s t then { kind := .moveRefPass, reason := .forwardedReturn }
      else { kind := .constructByCopy, reason := .fallback }

def fallbackDestruction (f : Function) (m : TypeModel) :
    Except Fault (OrderedMap Place DestructionPlan) := do
  let plans ← ((sortNames f.bindings.keys).filterMap fun name =>
      (f.binding? name).map fun b => (name, b)).mapM fun (name, b) => do
    if !m.table.contains b.type then return none
    let owed ← if f.ownership b = .owned then liftType (m.needsDestroy b.type) else .ok false
    let place : Place := { binding := name }
    let plan : DestructionPlan :=
      { type := b.type, disposal := if owed then .always else .never, reason := .fallback }
    return some (place, plan)
  return OrderedMap.ofList (plans.filterMap id)

def fallbackAssign? (f : Function) (m : TypeModel) (settings : Settings) (s : Site) :
    Except Fault (Option (SiteId × AssignPlan)) := do
  match s.binding.bind fun name => (f.binding? name).map fun b => (name, b) with
  | none => return none
  | some (name, b) =>
    match m.leafType? b s.path with
    | none => return none
    | some leaf =>
      if !(← m.assignRelevant leaf) then return none
      return some (s.id, {
        place := { binding := name, path := s.path }
        order := settings.assignOrder
        destState := .valid
        dispose := if ← liftType (m.needsDestroy leaf) then .always else .never
        sourceSite := ← f.assignSource s })

/-- The plan that moves nothing, with the diagnostics that explain why. -/
def fallbackPlan (f : Function) (m : TypeModel) (settings : Settings)
    (diagnostics : List Diagnostic) : Except Fault FunctionPlan := do
  let destruction ← f.fallbackDestruction m
  let assigns ← (f.allSites.filter (·.kind = .write)).mapM (f.fallbackAssign? m settings)
  return {
    name := f.name
    decisions := OrderedMap.ofList (f.decidedSites.map fun s => (s.id, f.fallbackDecision s))
    destruction := destruction
    assigns := OrderedMap.ofList (assigns.filterMap id)
    diagnostics := diagnostics
    excluded := true }

end MovePlan.Function
