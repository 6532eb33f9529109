import MovePlan.Flow.Builder

set_option autoImplicit false

namespace MovePlan.Script

inductive ArmSide
  | onTrue
  | onFalse
deriving DecidableEq, Inhabited

def ArmSide.first (side : ArmSide) (onTrue onFalse : BlockId) : BlockId :=
  match side with
  | .onTrue => onTrue
  | .onFalse => onFalse

mutual

inductive Step
  | param (name : String) (type : TypeRef) (mode : PassMode) (forwards : Bool)
  | declare (name : String) (type : TypeRef)
  | access (access : Build.Access) (ref : String)
  | moveOut (source : Build.Source TypeRef) (target : Option Target) (explicit viaForward : Bool)
  | call (form : Build.CallForm) (args : List (Build.Source TypeRef))
  | assign (dest : String) (source : Build.Source TypeRef) (explicit : Bool)
  | ret (mode : PassMode) (sources : List (Build.Source TypeRef))
  | label (name : String)
  | jump (label : String)
  | jumpIf (label : String)
  | tempMove (type : TypeRef) (target : Option Target)
  /-- A branch whose arms are entered in the given order; an arm may be missing or come again. -/
  | branch (arms : List Arm)
  /-- A branch whose second arm is empty. -/
  | branchThen (body : List Step)
  | loop (cond : List String) (body : List Step)
  | breakLoop (depth : Nat)
  | breakLoopIf (depth : Nat)
  | continueLoop (depth : Nat)
  | scope (body : List Step)
  | operand (op : String) (body : List Step)
  | nested (name : String) (captures : List String) (body : List Step)
  | finish

inductive Arm
  | mk (side : ArmSide) (body : List Step)

end

instance : Inhabited Step := ⟨.finish⟩
instance : Inhabited Arm := ⟨.mk .onTrue []⟩

inductive Outcome
  | done
  | name (name : String)
  | site (site : Site)
  | sites (sites : List Site)
  | block (id : BlockId)
  | loop (blocks : Build.LoopBlocks)
  | size (blocks : Nat)
deriving Inhabited

/-- What a step answered, and the builder when the step had ended. -/
structure LogEntry where
  step : Step
  outcome : Except BuildError Outcome
  builder : Builder

structure Session where
  table : TypeTable
  builder : Builder
deriving Inhabited

namespace Session

def extend {α : Type} (s : Session) (op : Extend α) : α × Session :=
  let (a, b) := op s.builder
  (a, { s with builder := b })

def attempt {α : Type} (s : Session) (op : Build α) : Except BuildError α × Session :=
  s.extend op.run

/-- Ends a step: its entry stands before those of its body. -/
def close (s : Session) (step : Step) (outcome : Except BuildError Outcome) (body : List LogEntry) :
    List LogEntry × Session :=
  ({ step := step, outcome := outcome, builder := s.builder } :: body, s)

def perform (s : Session) (step : Step) (op : Build Outcome) : List LogEntry × Session :=
  let (r, s) := s.attempt op
  s.close step r []

def conclude (s : Session) (step : Step) (outcome : Outcome) (body : List LogEntry)
    (op : Extend Unit) : List LogEntry × Session :=
  let (_, s) := s.extend op
  s.close step (.ok outcome) body

def withType (s : Session) (step : Step) (ref : TypeRef) (op : TypeId → Build Outcome) :
    List LogEntry × Session :=
  match ref.resolve s.table with
  | .error e => s.close step (.error (.type e)) []
  | .ok (t, id) => ({ s with table := t } : Session).perform step (op id)

/-- The sources with their types, and the table with all types that could be registered. -/
def resolveSources : TypeTable → List (Build.Source TypeRef) →
    Except TypeError (List (Build.Source TypeId)) × TypeTable
  | t, [] => (.ok [], t)
  | t, .place ref :: rest =>
    let (r, t) := resolveSources t rest
    (r.map (.place ref :: ·), t)
  | t, .temp type :: rest =>
    match type.resolve t with
    | .error e => (.error e, t)
    | .ok (t, id) =>
      let (r, t) := resolveSources t rest
      (r.map (.temp id :: ·), t)

def withSource (s : Session) (step : Step) (source : Build.Source TypeRef)
    (op : Build.Source TypeId → Build Outcome) : List LogEntry × Session :=
  match source with
  | .place ref => s.perform step (op (.place ref))
  | .temp type => s.withType step type fun id => op (.temp id)

def withSources (s : Session) (step : Step) (sources : List (Build.Source TypeRef))
    (op : List (Build.Source TypeId) → Build Outcome) : List LogEntry × Session :=
  match resolveSources s.table sources with
  | (.error e, t) => ({ s with table := t } : Session).close step (.error (.type e)) []
  | (.ok sources, t) => ({ s with table := t } : Session).perform step (op sources)

def withLoop (s : Session) (step : Step) (loops : List Build.LoopBlocks) (depth : Nat)
    (op : Build.LoopBlocks → Extend Unit) : List LogEntry × Session :=
  match loops[depth]? with
  | none => s.close step (.error .noLoop) []
  | some blocks => s.conclude step .done [] (op blocks)

def inArm (s : Session) (first : BlockId) (body : Session → List LogEntry × Session) :
    List LogEntry × Option BlockId × Session :=
  let (_, s) := s.extend (Build.enterArm first)
  let (log, s) := body s
  let (last, s) := s.extend Build.leaveArm
  (log, last, s)

end Session

/-- The ends of arms that have been left, and the sides that have been entered. -/
structure ArmEnds where
  ends : List BlockId := []
  entered : List ArmSide := []

def ArmEnds.all (a : ArmEnds) (onTrue onFalse : BlockId) : List BlockId :=
  a.ends ++ (if .onTrue ∈ a.entered then [] else [onTrue]) ++
    (if .onFalse ∈ a.entered then [] else [onFalse])

mutual

/-- Runs a step. `loops` are the enclosing loops of this builder, the innermost first. -/
def runStep (loops : List Build.LoopBlocks) (step : Step) (s : Session) : List LogEntry × Session :=
  match step with
  | .param name type mode forwards => s.withType step type fun id => do
      Build.param name id mode forwards
      return .name name
  | .declare name type => s.withType step type fun id => return .site (← Build.declare name id)
  | .access a ref => s.perform step (return .site (← Build.access a ref))
  | .moveOut source target explicit viaForward =>
      s.withSource step source fun source => do
        return .site (← Build.moveOut source target explicit viaForward)
  | .tempMove type target => s.withType step type fun id => do
      return .site (← Build.moveOut (.temp id) target false false)
  | .call form args => s.withSources step args fun args => do
      return .sites (← Build.call form 0 args)
  | .assign dest source explicit => s.withSource step source fun source => do
      return .site (← Build.assign dest source explicit)
  | .ret mode sources => s.withSources step sources fun sources => do
      return .sites (← Build.ret mode sources)
  | .label name => s.perform step (return .block (← Build.label name))
  | .jump name => s.conclude step .done [] (Build.jump name)
  | .jumpIf name => s.conclude step .done [] (Build.jumpIf name)
  | .branch arms =>
      let ((onTrue, onFalse), s) := s.extend Build.openArms
      let (body, ends, s) := runArms loops onTrue onFalse arms {} s
      s.conclude step .done body (Build.joinArms (ends.all onTrue onFalse))
  | .branchThen steps =>
      let ((onTrue, onFalse), s) := s.extend Build.openArms
      let (body, last, s) := s.inArm onTrue (runSteps loops steps)
      s.conclude step .done body (Build.joinArms (last.toList ++ [onFalse]))
  | .loop cond steps =>
      match s.attempt (Build.enterLoop cond) with
      | (.error e, s) => s.close step (.error e) []
      | (.ok blocks, s) =>
        let (body, s) := runSteps (blocks :: loops) steps s
        s.conclude step (.loop blocks) body (Build.leaveLoop blocks)
  | .breakLoop depth => s.withLoop step loops depth Build.breakLoop
  | .breakLoopIf depth => s.withLoop step loops depth Build.breakLoopIf
  | .continueLoop depth => s.withLoop step loops depth Build.continueLoop
  | .scope steps =>
      let (_, s) := s.extend Build.enterScope
      let (body, s) := runSteps loops steps s
      s.conclude step .done body Build.leaveScope
  | .operand op steps =>
      match s.attempt (Build.enterOperand op) with
      | (.error e, s) => s.close step (.error e) []
      | (.ok join, s) =>
        let (body, s) := runSteps loops steps s
        s.conclude step .done body (Build.leaveOperand join)
  | .nested name captures steps =>
      match s.attempt (Build.capture .empty captures) with
      | (.error e, s) => s.close step (.error e) []
      | (.ok types, s) =>
        let (body, inner) := runSteps [] steps
          { table := s.table, builder := Builder.start name types }
        ({ s with table := inner.table } : Session).conclude step .done body
          (Build.addNested inner.builder.finish.function)
  | .finish =>
      let (_, s) := s.extend (modify Builder.finish)
      s.close step (.ok (.size s.builder.function.blocks.size)) []

def runSteps (loops : List Build.LoopBlocks) (steps : List Step) (s : Session) :
    List LogEntry × Session :=
  match steps with
  | [] => ([], s)
  | step :: rest =>
    let (first, s) := runStep loops step s
    let (later, s) := runSteps loops rest s
    (first ++ later, s)

def runArm (loops : List Build.LoopBlocks) (onTrue onFalse : BlockId) (arm : Arm) (ends : ArmEnds)
    (s : Session) : List LogEntry × ArmEnds × Session :=
  match arm with
  | .mk side steps =>
    let (body, last, s) := s.inArm (side.first onTrue onFalse) (runSteps loops steps)
    (body, { ends := ends.ends ++ last.toList, entered := side :: ends.entered }, s)

def runArms (loops : List Build.LoopBlocks) (onTrue onFalse : BlockId) (arms : List Arm)
    (ends : ArmEnds) (s : Session) : List LogEntry × ArmEnds × Session :=
  match arms with
  | [] => ([], ends, s)
  | arm :: rest =>
    let (first, ends, s) := runArm loops onTrue onFalse arm ends s
    let (later, ends, s) := runArms loops onTrue onFalse rest ends s
    (first ++ later, ends, s)

end

structure Result where
  log : List LogEntry
  table : TypeTable
  function : Function

def run (table : TypeTable) (name : String) (captures : OrderedMap String TypeId)
    (steps : List Step) : Result :=
  let (log, s) := runSteps [] steps { table := table, builder := Builder.start name captures }
  { log := log, table := s.table, function := s.builder.finish.function }

end MovePlan.Script
