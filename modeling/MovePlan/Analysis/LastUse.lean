import MovePlan.Flow.Fault
import MovePlan.Flow.Fixpoint
import MovePlan.Flow.Graph
import MovePlan.Settings
import MovePlan.Types.Path

set_option autoImplicit false

/-!
# Last uses

An access is a last use if no later access of its binding can be reached before the lifetime ends: by
leaving the region, by returning, or at a new declaration. A last use is suppressed if the binding is
captured, if its address may have been taken before, or if the block lies between a label and a jump
back to it. A last use of a field path may move the field only if the path stays inside the binding,
no aggregate above the field has a destructor, and the field's type is move-capable.
-/
namespace MovePlan

inductive Suppression
  | captured
  | addressTaken
  | labelLoop
deriving DecidableEq, Inhabited

def Suppression.label : Suppression → String
  | captured => "captured"
  | addressTaken => "address_taken"
  | labelLoop => "label_loop"

inductive FieldBlock
  | throughPointer
  | destructorAncestor
  | notMoveCapable
deriving DecidableEq, Inhabited

def FieldBlock.label : FieldBlock → String
  | throughPointer => "through_pointer"
  | destructorAncestor => "destructor_ancestor"
  | notMoveCapable => "not_move_capable"

structure AccessFact where
  site : SiteId
  lastUse : Bool
  suppressed : Option Suppression
  fieldBlocked : Option FieldBlock
deriving DecidableEq, Inhabited

/-- A last use whose field path, if it has one, may be moved out. -/
def AccessFact.moveCandidate (a : AccessFact) : Bool := a.lastUse && a.fieldBlocked.isNone

/-- The facts of all accesses, in the order in which they were found; of two facts for one site the
later one counts. -/
structure LastUseFacts where
  mode : LastUseMode
  accesses : List AccessFact := []
  /-- For each binding the blocks at whose entry it is live; empty in block-local mode. -/
  liveIn : List (String × List BlockId) := []
deriving DecidableEq, Inhabited

namespace LastUseFacts

def fact? (f : LastUseFacts) (id : SiteId) : Option AccessFact :=
  lastWrite id (f.accesses.map fun a => (a.site, a))

def isLastUse (f : LastUseFacts) (id : SiteId) : Bool :=
  ((f.fact? id).map AccessFact.lastUse).getD false

def isMoveCandidate (f : LastUseFacts) (id : SiteId) : Bool :=
  ((f.fact? id).map AccessFact.moveCandidate).getD false

def suppressed? (f : LastUseFacts) (id : SiteId) : Option Suppression :=
  lastWrite id (f.accesses.filterMap fun a => a.suppressed.map fun s => (a.site, s))

def fieldBlocked? (f : LastUseFacts) (id : SiteId) : Option FieldBlock :=
  lastWrite id (f.accesses.filterMap fun a => a.fieldBlocked.map fun s => (a.site, s))

def lastUseSites (f : LastUseFacts) (fn : Function) (name : String) : List SiteId :=
  ((fn.sitesOf name).filter fun s => f.isLastUse s.id).map Site.id

end LastUseFacts

structure Liveness where
  atExit : Bool := false
  atEntry : Bool := false
deriving DecidableEq, Inhabited

/-- Liveness before a site, from the liveness after it: a declaration ends it, an access starts it. -/
def liveBefore (name : String) (s : Site) (after : Bool) : Bool :=
  if s.binding = some name then s.isAccess else after

def liveBeforeAll (name : String) (sites : List Site) (after : Bool) : Bool :=
  sites.foldr (liveBefore name) after

def liveAfterEach (name : String) (sites : List Site) (after : Bool) : List (SiteId × Bool) :=
  (sites.foldr (fun s (acc : List (SiteId × Bool) × Bool) =>
    (if s.binding = some name then acc.1 ++ [(s.id, acc.2)] else acc.1, liveBefore name s acc.2))
    ([], after)).1

namespace Function

/-- Liveness of one block, from that of its successors inside the region. -/
def livenessStep (f : Function) (name : String) (b : Binding) (live : BlockId → Liveness)
    (id : BlockId) : Liveness :=
  let out := (f.successors id).any fun s => b.inRegion s && (live s).atEntry
  { atExit := out, atEntry := liveBeforeAll name (f.sitesAt id) out }

def liveness (f : Function) (g : BlockGraph) (name : String) (b : Binding) :
    ValueTable BlockId Liveness :=
  -- liveness goes against the edges, so the last blocks come first
  (ValueTable.fill g.order fun _ => ({} : Liveness)).settle {} (f.livenessStep name b)
    g.order.reverse (2 * g.order.length + 1)

def liveAfter (f : Function) (table : ValueTable BlockId Liveness) (name : String) :
    List (SiteId × Bool) :=
  table.flatMap fun e => liveAfterEach name (f.sitesAt e.1) e.2.atExit

/-- Everything stays live but the final access of a binding whose accesses stand in one block that no
walk comes back to. -/
def liveAfterLocally (f : Function) (name : String) : List (SiteId × Bool) :=
  let sites := f.sitesOf name
  let accesses := sites.filter Site.isAccess
  let all := sites.map fun s => (s.id, true)
  match distinct (accesses.map Site.block), accesses.getLast? with
  | [block], some last =>
    if (f.successors block).any fun s => (f.reachableFrom s).contains block then all
    -- the entry at the end hides the one that says the final access stays live
    else all ++ [(last.id, false)]
  | _, _ => all

def takesAddress (name : String) (s : Site) : Bool :=
  s.binding = some name && s.kind = .addrOf

def exposureStep (f : Function) (g : BlockGraph) (name : String) (exposed : BlockId → Bool)
    (id : BlockId) : Bool :=
  (g.predsOf id).any exposed || (f.sitesAt id).any (takesAddress name)

def exposure (f : Function) (g : BlockGraph) (name : String) : ValueTable BlockId Bool :=
  (ValueTable.fill g.order fun _ => false).settle false (f.exposureStep g name) g.order
    (g.order.length + 1)

def exposedIn (name : String) (exposed : Bool) : List Site → List SiteId
  | [] => []
  | s :: rest =>
    let now := exposed || takesAddress name s
    if s.binding = some name && now && s.isAccess then s.id :: exposedIn name now rest
    else exposedIn name now rest

/-- The accesses of a binding at or after an address is taken, on some walk. -/
def exposedSites (f : Function) (g : BlockGraph) (name : String) : List SiteId :=
  if f.allSites.any (takesAddress name) then
    let table := f.exposure g name
    table.flatMap fun e =>
      exposedIn name ((g.predsOf e.1).any (table.at? false)) (f.sitesAt e.1)
  else []

def visitBack (f : Function) : Nat → List BlockId → List BlockId → List BlockId
  | 0, _, seen => seen
  | _ + 1, [], seen => seen
  | fuel + 1, b :: stack, seen =>
    if b ∈ seen then visitBack f fuel stack seen
    else visitBack f fuel (f.predecessors b ++ stack) (b :: seen)

/-- The blocks from which a walk can come to `b`, `b` among them. -/
def reaching (f : Function) (b : BlockId) : List BlockId :=
  f.visitBack (f.edgeCount + 2) [b] []

def jumps (f : Function) : List (BlockId × BlockId) :=
  f.sortedBlocks.flatMap fun b =>
    (b.2.edges.filter fun e => e.kind = .jump && f.hasBlock e.dst).map fun e => (b.1, e.dst)

/-- The blocks that lie on a way from a label to a jump back to it. -/
def labelLoopBlocks (f : Function) : List BlockId :=
  f.jumps.flatMap fun (src, label) =>
    let after := f.reachableFrom label
    if after.contains src then after.filter (f.reaching src).contains else []

end Function

/-- The rule that forbids to move the field path of a site out of its binding, if there is one. -/
def TypeModel.fieldBlock? (m : TypeModel) (root : TypeId) (s : Site) :
    Except TypeError (Option FieldBlock) := do
  if s.path.isEmpty then return none
  let p ← m.resolvePath root s.path
  if s.throughPointer || p.throughPointer then return some .throughPointer
  if ← p.ancestors.anyM m.hasDestructor then return some .destructorAncestor
  if ← m.isMoveCapable p.leaf then return none
  return some .notMoveCapable

namespace Function

def usedBindings (f : Function) : List (String × Binding) :=
  (sortNames (distinct (f.allSites.filterMap Site.binding))).filterMap fun name =>
    (f.binding? name).map fun b => (name, b)

def suppression? (captured : Bool) (exposed : List SiteId) (loops : List BlockId) (s : Site) :
    Option Suppression :=
  if captured then some .captured
  else if exposed.contains s.id then some .addressTaken
  else if loops.contains s.block then some .labelLoop
  else none

def accessFacts (f : Function) (g : BlockGraph) (m : TypeModel) (loops : List BlockId)
    (live : List (SiteId × Bool)) (name : String) (b : Binding) :
    Except TypeError (List AccessFact) :=
  let exposed := f.exposedSites g name
  let captured := f.capturedNames.contains name
  ((f.sitesOf name).filter Site.isAccess).mapM fun s => do
    -- an access that no block lists is never a last use
    let last := !((lastWrite s.id live).getD true)
    let suppressed := if last then suppression? captured exposed loops s else none
    let blocked ← m.fieldBlock? b.type s
    return { site := s.id, lastUse := last && suppressed.isNone, suppressed := suppressed,
             fieldBlocked := blocked }

def lastUseFacts (f : Function) (m : TypeModel) (mode : LastUseMode) :
    Except TypeError LastUseFacts := do
  let g := f.graph
  let loops := f.labelLoopBlocks
  match mode with
  | .fixpoint =>
    let tables := f.usedBindings.map fun (name, b) => (name, b, f.liveness g name b)
    let accesses ← tables.mapM fun (name, b, live) =>
      f.accessFacts g m loops (f.liveAfter live name) name b
    let liveIn := tables.map fun (name, _, live) =>
      (name, (live.filter fun e => e.2.atEntry).map Prod.fst)
    return { mode := mode, accesses := accesses.flatten, liveIn := liveIn }
  | .blockLocal =>
    let accesses ← f.usedBindings.mapM fun (name, b) =>
      f.accessFacts g m loops (f.liveAfterLocally name) name b
    return { mode := mode, accesses := accesses.flatten, liveIn := [] }

end Function
end MovePlan
