import MovePlan.Plan.Basic

set_option autoImplicit false

namespace MovePlan

def TypeModel.leafType? (m : TypeModel) (b : Binding) (path : Path) : Option TypeId :=
  if !m.table.contains b.type then none
  else match m.resolvePath b.type path with
    | .ok p => some p.leaf
    | .error _ => none

namespace Function

def siteType (f : Function) (m : TypeModel) (s : Site) : Except Fault TypeId :=
  match s.binding with
  | none => optionOr (.untypedTemporary s f.name) s.tempType
  | some name => optionOr (.unresolvedPlace s f.name)
      ((f.binding? name).bind fun b => m.leafType? b s.path)

def ownedVerdict (settings : Settings) (facts : LastUseFacts) (s : Site) : Bool × DecisionReason :=
  if s.viaForward then
    if settings.inlineForwarding && facts.isMoveCandidate s.id then (true, .inlineForwarding)
    else (false, .forwarded)
  else if s.explicit then
    if (facts.fieldBlocked? s.id).isSome then (false, .fieldBlocked) else (true, .explicit)
  else if facts.isMoveCandidate s.id then (true, .lastUse)
  else if facts.isLastUse s.id then (false, .fieldBlocked)
  else match facts.suppressed? s.id with
    | some .captured => (false, .captured)
    | some .addressTaken => (false, .addressTaken)
    | some .labelLoop => (false, .labelLoop)
    | none => (false, .liveAfter)

/-- Whether the source of a move-out may be moved, and why. -/
def verdict (f : Function) (settings : Settings) (facts : LastUseFacts) (s : Site) :
    Bool × DecisionReason :=
  match (s.binding.bind f.binding?).map f.ownership with
  | none => (true, .temporary)
  | some .borrowed => (false, .borrowed)
  | some .captured => (false, .captured)
  | some .owned => ownedVerdict settings facts s

def decideSite (f : Function) (m : TypeModel) (settings : Settings) (facts : LastUseFacts) (s : Site) :
    Except Fault UseDecision :=
  if s.kind ≠ .moveOut then .ok { kind := .plainRefPass, reason := .inPlace }
  else do
    let t ← optionOr (.noTarget s f.name) s.target
    if f.returnsForwarded s t then return { kind := .moveRefPass, reason := .forwardedReturn }
    if t.mode = .plainRef then return { kind := .plainRefPass, reason := .plainRef }
    if t.isForwardingCall then return { kind := .moveRefPass, reason := .forwarding }
    let type ← f.siteType m s
    if !(← liftType (m.isMoveCapable type)) then
      return { kind := .constructByCopy, reason := .ordinary }
    let (canMove, reason) := f.verdict settings facts s
    let (passing, transfers) := t.passing canMove
    return { kind := passing.toDecision, transfers := transfers, reason := reason }

def decidedSites (f : Function) : List Site := f.allSites.filter (·.kind ≠ .decl)

def decisions (f : Function) (m : TypeModel) (settings : Settings) (facts : LastUseFacts) :
    Except Fault (OrderedMap SiteId UseDecision) := do
  return OrderedMap.ofList (← f.decidedSites.mapM fun s => do
    return (s.id, ← f.decideSite m settings facts s))

end Function
end MovePlan
