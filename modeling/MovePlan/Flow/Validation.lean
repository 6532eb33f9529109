import MovePlan.Flow.Fault
import MovePlan.Flow.Graph
import MovePlan.Types.Path

set_option autoImplicit false

/-!
# The shape of a function

The analyses run on well-formed functions only. Every defect of a function is found, not just the
first, in the order entry, edges, labels, sites, bindings, parameters, nested functions. A function
without its entry block has that one defect.
-/
namespace MovePlan

inductive Defect
  | noEntry (entry : BlockId)
  | edgeSource (src dst stored : BlockId)
  | danglingEdge (dst src : BlockId)
  | unknownLabel (label : String) (src : BlockId)
  | unlabeledTarget (src dst : BlockId)
  | unreachableLabel (label : String)
  | sitePosition (site : Site) (block : BlockId) (index : Nat)
  | duplicateSite (site : SiteId)
  | untypedTemporary (site : SiteId)
  | unknownTempType (site : SiteId) (type : TypeId)
  | unknownBinding (site : SiteId) (name : String)
  | missingTarget (site : SiteId)
  | unknownRegionBlocks (name : String) (blocks : List BlockId)
  | declOutsideRegion (name : String)
  | unknownBindingType (name : String) (type : TypeId)
  | badPath (fault : TypeError) (site : SiteId)
  | undeclaredParam (name : String)
  | forwardOutOfRange (index : Int)
  | forwardNotMoveRef (name : String)
  | unknownCapture (inner name : String)
deriving DecidableEq, Inhabited

namespace Defect

def code : Defect → String
  | noEntry _ => "E_CFG_NO_ENTRY"
  | edgeSource .. => "E_CFG_EDGE_SRC"
  | danglingEdge .. | unknownLabel .. => "E_CFG_DANGLING_JUMP"
  | unlabeledTarget .. => "E_CFG_JUMP_TARGET"
  | unreachableLabel _ => "E_CFG_UNREACHABLE_LABEL"
  | sitePosition .. => "E_CFG_SITE_POSITION"
  | duplicateSite _ => "E_CFG_DUP_SITE"
  | untypedTemporary _ => "E_CFG_TEMP_SITE"
  | unknownTempType .. | unknownBindingType .. => "E_CFG_UNKNOWN_TYPE"
  | unknownBinding .. => "E_CFG_UNKNOWN_BINDING"
  | missingTarget _ => "E_CFG_MISSING_TARGET"
  | unknownRegionBlocks .. | declOutsideRegion _ => "E_CFG_REGION"
  | badPath .. => "E_CFG_BAD_PATH"
  | undeclaredParam _ | forwardOutOfRange _ | forwardNotMoveRef _ => "E_CFG_PARAM"
  | unknownCapture .. => "E_CFG_UNKNOWN_CAPTURE"

/-- What is wrong, in words; none if a number in the text has too many digits. -/
def describe? : Defect → Option String
  | noEntry e => do
    let e ← Numeral.text? e
    return s!"entry block bb{e} does not exist"
  | edgeSource src dst stored => do
    let src ← Numeral.text? src
    let dst ← Numeral.text? dst
    let stored ← Numeral.text? stored
    return s!"edge bb{src}->bb{dst} stored on bb{stored}"
  | danglingEdge dst src => do
    let dst ← Numeral.text? dst
    let src ← Numeral.text? src
    return s!"edge to missing block bb{dst} from bb{src}"
  | unknownLabel label src => do
    let src ← Numeral.text? src
    return s!"jump to unknown label '{label}' from bb{src}"
  | unlabeledTarget src dst => do
    let src ← Numeral.text? src
    let dst ← Numeral.text? dst
    return s!"jump from bb{src} targets unlabeled bb{dst}"
  | unreachableLabel label => s!"label '{label}' is unreachable"
  | sitePosition s block index => do
    let id ← Numeral.text? s.id
    let claimed ← Numeral.text? s.block
    let position ← Numeral.text? s.index
    let block ← Numeral.text? block
    let index ← Numeral.text? index
    return s!"site {id} claims bb{claimed}[{position}] but is stored at bb{block}[{index}]"
  | duplicateSite s => do
    let s ← Numeral.text? s
    return s!"duplicate site id {s}"
  | untypedTemporary s => do
    let s ← Numeral.text? s
    return s!"temporary site {s} must be a typed move-out"
  | unknownTempType s t => do
    let s ← Numeral.text? s
    let t ← Numeral.text? t
    return s!"temporary site {s} has unknown type {t}"
  | unknownBinding s n => do
    let s ← Numeral.text? s
    return s!"site {s} uses undeclared '{n}'"
  | missingTarget s => do
    let s ← Numeral.text? s
    return s!"move-out site {s} has no target"
  | unknownRegionBlocks n bs => do
    let bs ← Numeral.listText? bs
    return s!"region of '{n}' names unknown blocks {bs}"
  | declOutsideRegion n => s!"'{n}' declared outside its own region"
  | unknownBindingType n t => do
    let t ← Numeral.text? t
    return s!"'{n}' has unknown type {t}"
  | badPath e s => do
    let e ← e.message?
    let s ← Numeral.text? s
    return s!"{e} (site {s})"
  | undeclaredParam n => s!"parameter '{n}' is not a declared parameter binding"
  | forwardOutOfRange i => do
    let i ← Numeral.text? i
    return s!"forwarded parameter index {i} out of range"
  | forwardNotMoveRef n => s!"forwarded parameter '{n}' is not a move reference"
  | unknownCapture inner n => s!"nested function '{inner}' captures unknown '{n}'"

end Defect

structure Finding where
  defect : Defect
  span : Span
deriving DecidableEq, Inhabited

def Finding.toDiagnostic (function : String) (x : Finding) : Except Fault Diagnostic := do
  let description ← optionOr .longNumber x.defect.describe?
  return {
    message := s!"{description} in '{function}'"
    code := some x.defect.code
    phase := some "cfg"
    span := x.span }

namespace Function

def edgeFindings (f : Function) (id : BlockId) (b : Block) (e : Edge) : List Finding :=
  let source := if e.src ≠ id then [⟨.edgeSource e.src e.dst id, b.span⟩] else []
  let target : List Finding := match f.block? e.dst with
    | none =>
      match e.label.filter (· ≠ "") with
      | some label => [⟨.unknownLabel label id, b.span⟩]
      | none => [⟨.danglingEdge e.dst id, b.span⟩]
    | some dst =>
      if e.kind = .jump && dst.label.isNone then [⟨.unlabeledTarget id e.dst, b.span⟩] else []
  source ++ target

def labelFindings (f : Function) : List Finding :=
  let reached := f.reachable
  f.sortedBlocks.filterMap fun b =>
    match b.2.label with
    | some label => if reached.contains b.1 then none else some ⟨.unreachableLabel label, b.2.span⟩
    | none => none

/-- The defects of one site, where `seen` lists the ids of the sites before it. -/
def siteFindings (f : Function) (model : Option TypeModel) (seen : List SiteId) (id : BlockId)
    (index : Nat) (s : Site) : List Finding :=
  let at_ (d : Defect) : Finding := ⟨d, s.span⟩
  (if s.block ≠ id || s.index ≠ index then [at_ (.sitePosition s id index)] else []) ++
  (if s.id ∈ seen then [at_ (.duplicateSite s.id)] else []) ++
  (match s.binding with
    | none =>
      match s.kind, s.tempType with
      | .moveOut, some t =>
        match model with
        | some m => if m.table.contains t then [] else [at_ (.unknownTempType s.id t)]
        | none => []
      | _, _ => [at_ (.untypedTemporary s.id)]
    | some name =>
      if f.bindings.contains name then [] else [at_ (.unknownBinding s.id name)]) ++
  (if s.kind = .moveOut && s.target.isNone then [at_ (.missingTarget s.id)] else [])

def placedSites (f : Function) : List (BlockId × Nat × Site) :=
  f.sortedBlocks.flatMap fun b => b.2.sites.zipIdx.map fun s => (b.1, s.2, s.1)

def sitesFindings (f : Function) (model : Option TypeModel) :
    List SiteId → List (BlockId × Nat × Site) → List Finding
  | _, [] => []
  | seen, (id, index, s) :: rest =>
    f.siteFindings model seen id index s ++ sitesFindings f model (s.id :: seen) rest

def regionFindings (f : Function) (b : Binding) : List Finding :=
  match b.region with
  | none => []
  | some region =>
    let unknown := sortInts ((distinct region).filter fun id => !f.hasBlock id)
    (if unknown.isEmpty then [] else [⟨.unknownRegionBlocks b.name unknown, b.span⟩]) ++
    (f.sitesOf b.name).filterMap fun s =>
      if s.kind = .decl && !region.contains s.block then some ⟨.declOutsideRegion b.name, s.span⟩
      else none

def typeFindings (f : Function) (m : TypeModel) (b : Binding) : List Finding :=
  if !m.table.contains b.type then [⟨.unknownBindingType b.name b.type, b.span⟩]
  else (f.sitesOf b.name).filterMap fun s =>
    match m.resolvePath b.type s.path with
    | .ok _ => none
    | .error e => some ⟨.badPath e s.id, s.span⟩

/-- The sites of a binding are looked for by its own name, not by its key. -/
def bindingFindings (f : Function) (model : Option TypeModel) (b : Binding) : List Finding :=
  f.regionFindings b ++ (match model with
    | some m => f.typeFindings m b
    | none => [])

def paramFindings (f : Function) : List Finding :=
  f.params.filterMap fun name =>
    match f.binding? name with
    | some b => if b.isParam then none else some ⟨.undeclaredParam name, f.span⟩
    | none => some ⟨.undeclaredParam name, f.span⟩

def forwardFindings (f : Function) : List Finding :=
  (sortInts (distinct f.forwards)).filterMap fun (i : Int) =>
    if i ≥ (f.params.length : Int) then some ⟨.forwardOutOfRange i, f.span⟩
    else match (entryAt? f.params i).bind f.binding? with
      | some b => if b.mode ≠ .moveRef then some ⟨.forwardNotMoveRef b.name, f.span⟩ else none
      | none => none

def captureFindings (f : Function) : List Finding :=
  f.nested.flatMap fun inner => inner.captures.filterMap fun name =>
    if f.bindings.contains name then none else some ⟨.unknownCapture inner.name name, inner.span⟩

def bodyFindings (f : Function) (model : Option TypeModel) : List Finding :=
  (f.sortedBlocks.flatMap fun b => b.2.edges.flatMap (f.edgeFindings b.1 b.2)) ++
  f.labelFindings ++
  f.sitesFindings model [] f.placedSites ++
  f.bindings.values.flatMap (f.bindingFindings model) ++
  f.paramFindings

/-- All defects of a function; types are checked only against a given model. -/
def findings (f : Function) (model : Option TypeModel) : List Finding :=
  if f.hasBlock f.entry then f.bodyFindings model ++ (f.forwardFindings ++ f.captureFindings)
  else [⟨.noEntry f.entry, f.span⟩]

/-- A negative forwarding index counts from the last parameter; below the first there is none. -/
def forwardsInRange (f : Function) : Bool :=
  f.forwards.all fun (i : Int) => decide (0 ≤ i + f.params.length)

/-- Reports the findings. There is no answer if a number in one of them has too many digits, or if a
forwarding index is below the first parameter; what comes first in the order of the findings counts. -/
def validate (f : Function) (model : Option TypeModel) : Except Fault (List Diagnostic) := do
  if !f.hasBlock f.entry then [⟨.noEntry f.entry, f.span⟩].mapM (Finding.toDiagnostic f.name)
  else
    let body ← (f.bodyFindings model).mapM (Finding.toDiagnostic f.name)
    if !f.forwardsInRange then throw .noParam
    let rest ← (f.forwardFindings ++ f.captureFindings).mapM (Finding.toDiagnostic f.name)
    return body ++ rest

end Function
end MovePlan
