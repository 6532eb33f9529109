import MovePlan.CommandLine.Request
import MovePlan.Lowering.Text
import MovePlan.Plan.Analyze
import MovePlan.Plan.Report
import MovePlan.Text.Program

set_option autoImplicit false

namespace MovePlan.CommandLine

/-- A carriage return, alone or before a newline, ends a line. -/
def unifyNewlines : List Char → List Char
  | [] => []
  | '\r' :: '\n' :: rest => '\n' :: unifyNewlines rest
  | c :: rest => (if c = '\r' then '\n' else c) :: unifyNewlines rest

inductive ResponseError
  | lower (e : LowerError)
  | fault (f : Fault)
  /-- A setting that has no value is needed. -/
  | emptySetting (s : Setting)
deriving DecidableEq, Inhabited

def ResponseError.message : ResponseError → String
  | lower e => e.message?.getD Numeral.refusal
  | fault f => f.message?.getD Numeral.refusal
  | emptySetting s =>
    match longNames.find? (·.2 = .setting s) with
    | some (name, _) => s!"{name} has no value"
    | none => "a setting has no value"

structure Response where
  exitCode : Nat
  /-- The lines for the standard output. -/
  output : List String
  /-- The lines for the standard error output. -/
  errors : List String
  /-- The code to be written, and where. -/
  code : Option (FileName × String) := none
deriving DecidableEq, Inhabited

def textOfLines (lines : List String) : String := String.join (lines.map fun l => l ++ "\n")

namespace Request

def unreadable (file : FileName) : Diagnostic :=
  { message := s!"cannot read '{file.text}'", code := some "E_NO_FILE", phase := some "parser" }

def fallbackSource (q : Request) : Option String :=
  match q.sources with
  | [s] => some s.text
  | _ => none

def exitCodeOf (diagnostics : List Diagnostic) : Nat := if hasErrors diagnostics then 1 else 0

def payload? (q : Request) (diagnostics : List Diagnostic) (functions : List Function)
    (plans : List FunctionPlan) : Option Json := do
  let functions ← plansJson? (fun _ => []) functions plans
  return .obj [
    ("exit_code", .int (exitCodeOf diagnostics)),
    ("diagnostics", .ofList (fun d => d.toJson "moves" q.fallbackSource) diagnostics),
    ("functions", .arr functions)]

/-- The lines of plans and diagnostics, for the output and for the error output: one line of JSON, or
text. -/
def lines? (q : Request) (diagnostics : List Diagnostic) (functions : List Function)
    (plans : List FunctionPlan) : Option (List String × List String) := do
  if q.json then
    let payload ← q.payload? diagnostics functions plans
    return ([payload.render], [])
  else
    let listings ← (functions.zip plans).mapM fun (f, p) => p.listing? f ""
    let errors ← diagnostics.mapM Diagnostic.render?
    return (listings.flatten, errors)

def report (q : Request) (diagnostics : List Diagnostic) (functions : List Function)
    (plans : List FunctionPlan) : Except ResponseError Response := do
  let (output, errors) ← (optionOr .longNumber (q.lines? diagnostics functions plans)).mapError .fault
  return { exitCode := exitCodeOf diagnostics, output := output, errors := errors }

def require (q : Request) (s : Setting) : Except ResponseError Unit :=
  if s ∈ q.empty then .error (.emptySetting s) else .ok ()

def codeOf (q : Request) (p : ProgramPlan) : Except ResponseError (Option (FileName × String)) := do
  if q.emitIr.isNone && .emitIr ∉ q.empty then return none
  let name := (q.sources.head?.map FileName.stem).getD ""
  let m ← (lowerProgram p.model p.functions p.plans name).mapError .lower
  match q.emitIr with
  | some file => return some (file, m.text)
  | none => .error (.emptySetting .emitIr)

/-- Answers a request, where `read` gives the text of a source, if there is such a file. -/
def respond (q : Request) (read : FileName → Option String) : Except ResponseError Response := do
  q.require .lastUseMode
  q.require .assignOrder
  let missing := q.sources.filter fun s => (read s).isNone
  if !missing.isEmpty then return ← q.report (missing.map unreadable) [] []
  let texts := q.sources.map fun s =>
    (String.ofList (unifyNewlines ((read s).getD "").toList), some s.text)
  let program ← (Program.ofTexts texts).mapError .fault
  if hasErrors program.diagnostics then return ← q.report program.diagnostics [] []
  q.require .jobs
  let plan ← (planProgram program.table program.functions q.settings).mapError .fault
  let diagnostics := program.diagnostics ++ plan.diagnostics
  let code ← if hasErrors diagnostics then pure none else q.codeOf plan
  let answer ← q.report diagnostics plan.functions plan.plans
  let trace := if q.trace then (plan.functions.zip plan.plans).map fun (f, p) => p.trace f else []
  return { answer with errors := trace ++ answer.errors, code := code }

end Request
end MovePlan.CommandLine
