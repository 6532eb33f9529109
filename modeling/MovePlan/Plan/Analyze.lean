import MovePlan.Flow.Validation
import MovePlan.Plan.Destruction
import MovePlan.Plan.Fallback

set_option autoImplicit false

namespace MovePlan
namespace Function

def ownPlan (f : Function) (m : TypeModel) (settings : Settings) (facts : LastUseFacts) :
    Except Fault FunctionPlan := do
  let decisions ← f.decisions m settings facts
  let moves := (decisions.entries.filter (·.2.transfers)).map Prod.fst
  let diagnostics ← f.checkUseAfterMove moves
  -- one use after a move takes back the decisions of the whole function
  if hasErrors diagnostics then f.fallbackPlan m settings diagnostics
  else
    let destruction ← f.destructionPlans m moves
    let assigns ← f.assignPlans m settings moves destruction
    return {
      name := f.name
      decisions := decisions
      destruction := destruction
      assigns := assigns
      diagnostics := diagnostics
      facts := some facts }

def exclusion (f : Function) (subject : String) (span : Span) : Diagnostic :=
  { message := s!"'{f.name}' excluded from move optimisation: {subject}"
    code := some "W_FN_EXCLUDED"
    phase := some "moves"
    severity := .warning
    span := span }

def violatingName? (m : TypeModel) (type : TypeId) : Except Fault (Option String) := do
  if !m.table.contains type then return none
  if ← liftType (m.isViolating type) then return some (← liftType (m.typeName type))
  return none

/-- A warning for every binding and every temporary of a violating type. -/
def violations (f : Function) (m : TypeModel) : Except Fault (List Diagnostic) := do
  let bindings ← ((sortNames f.bindings.keys).filterMap fun name =>
      (f.binding? name).map fun b => (name, b)).mapM fun (name, b) => do
    return (← violatingName? m b.type).map fun type =>
      f.exclusion s!"'{name}' has type '{type}' with invalid move operations" b.span
  let temps ← f.allSites.mapM fun s => do
    match s.tempType with
    | none => return none
    | some t => return (← violatingName? m t).map fun type =>
        f.exclusion s!"temporary of type '{type}' has invalid move operations" s.span
  return (bindings ++ temps).filterMap id

def bodyPlan (f : Function) (m : TypeModel) (settings : Settings) : Except Fault FunctionPlan := do
  let defects ← f.validate (some m)
  if hasErrors defects then f.fallbackPlan m settings defects
  else
    let warnings ← f.violations m
    if !warnings.isEmpty then f.fallbackPlan m settings (defects ++ warnings)
    else
      let facts ← liftType (f.lastUseFacts m settings.lastUseMode)
      let plan ← f.ownPlan m settings facts
      return { plan with diagnostics := defects ++ plan.diagnostics }

end Function

mutual

def planFunction (m : TypeModel) (settings : Settings) : Function → Except Fault FunctionPlan
  | ⟨name, entry, blocks, bindings, params, forwards, captures, nested, span⟩ => do
    let plan ← Function.bodyPlan
      ⟨name, entry, blocks, bindings, params, forwards, captures, nested, span⟩ m settings
    let inner ← planFunctions m settings nested
    return { plan with nested := inner }

def planFunctions (m : TypeModel) (settings : Settings) :
    List Function → Except Fault (List FunctionPlan)
  | [] => .ok []
  | f :: fs => do
    let plan ← planFunction m settings f
    let plans ← planFunctions m settings fs
    return plan :: plans

end

mutual

def FunctionPlan.allDiagnostics : FunctionPlan → List Diagnostic
  | ⟨_, _, _, _, diagnostics, _, _, nested⟩ => diagnostics ++ plansDiagnostics nested

def plansDiagnostics : List FunctionPlan → List Diagnostic
  | [] => []
  | p :: ps => p.allDiagnostics ++ plansDiagnostics ps

end

structure ProgramPlan where
  model : TypeModel
  functions : List Function
  plans : List FunctionPlan
  diagnostics : List Diagnostic

def ProgramPlan.ok (p : ProgramPlan) : Bool := !hasErrors p.diagnostics

def planProgram (table : TypeTable) (functions : List Function) (settings : Settings) :
    Except Fault ProgramPlan := do
  let model := TypeModel.build table
  let plans ← planFunctions model settings functions
  return {
    model := model
    functions := functions
    plans := plans
    diagnostics := model.diagnostics ++ plansDiagnostics plans }

end MovePlan
