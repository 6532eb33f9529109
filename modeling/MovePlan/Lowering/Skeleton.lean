import MovePlan.Plan.Basic

set_option autoImplicit false

/-!
# The skeleton of a planned function

Every block becomes a list of steps: a marker for each use site, stores to the drop flags around it,
and drops where lifetimes end. An edge that owes drops goes through a block of its own. What the
program computes beside its obligations is left out; a block with several edges asks for a choice.
-/
namespace MovePlan

inductive LowerError
  | fault (f : Fault)
  | dangling (function : String) (src dst : BlockId)
  | duplicateSymbol (name : String)
deriving DecidableEq, Inhabited

def LowerError.message? : LowerError → Option String
  | fault f => f.message?
  | dangling f src dst => do
    let src ← Numeral.text? src
    let dst ← Numeral.text? dst
    return s!"cannot lower '{f}': edge bb{src}->bb{dst} leaves the CFG"
  | duplicateSymbol n => n

structure Drop where
  callee : String
  binding : String
  /-- The flag that must be set. -/
  guard : Option String := none
deriving DecidableEq, Inhabited

inductive Step
  | store (flag : String) (value : Bool)
  | mark (marker : String) (site : SiteId)
deriving DecidableEq, Inhabited

inductive Successor
  | direct (dst : BlockId)
  /-- Through a block that drops what the edge leaves behind. -/
  | through (src dst : BlockId) (drops : List Drop)
deriving DecidableEq, Inhabited

inductive Ending
  | ret (drops : List Drop)
  | go (successors : List Successor)
deriving DecidableEq, Inhabited

structure SkeletonBlock where
  id : BlockId
  steps : List Step
  ending : Ending
deriving DecidableEq, Inhabited

/-- A flag, and whether it is set on entry to the function. -/
structure FlagSlot where
  name : String
  initially : Bool
deriving DecidableEq, Inhabited

structure Skeleton where
  slots : List String
  flags : List FlagSlot
  entry : BlockId
  blocks : List SkeletonBlock
deriving DecidableEq, Inhabited

namespace Function

/-- Parameters in order, then the other declared names in the order of their first declarations. A
declaration without a name is listed as such. -/
def bindingOrder (f : Function) : List (Option String) :=
  ((f.allSites.filter (·.kind = .decl)).map Site.binding).foldl
    (fun order n => if n ∈ order then order else order ++ [n]) (f.params.map some)

end Function

namespace FunctionPlan

def clearedBefore (p : FunctionPlan) (site : SiteId) : List String :=
  p.flags.flatMap fun flag =>
    (flag.clears.filter fun c => c.site = site && c.beforeCall).map fun _ => flag.name

def clearedAfter (p : FunctionPlan) (site : SiteId) : List String :=
  p.flags.flatMap fun flag =>
    (flag.clears.filter fun c => c.site = site && !c.beforeCall).map fun _ => flag.name

def setAfter (p : FunctionPlan) (site : SiteId) : List String :=
  p.flags.flatMap fun flag =>
    (if flag.declSite = some site then [flag.name] else []) ++
      (flag.sets.filter (·.site = site)).map fun _ => flag.name

def marker (p : FunctionPlan) (s : Site) : String :=
  if s.kind = .decl then "movec.decl"
  else match p.decisions.get? s.id with
    | some d => s!"movec.{d.kind.label}"
    | none => "movec.access"

def siteSteps (p : FunctionPlan) (s : Site) : List Step :=
  (p.clearedBefore s.id).map (Step.store · false) ++
  [.mark (p.marker s) s.id] ++
  (p.setAfter s.id).map (Step.store · true) ++
  (p.clearedAfter s.id).map (Step.store · false)

/-- Some place of the binding may have to be destroyed. -/
def owes (p : FunctionPlan) (binding : String) : Bool :=
  (p.plansOf binding).any fun e => e.2.disposal.kind ≠ .never

def dropOf (m : TypeModel) (binding : String) (d : DestructionPlan) :
    Except Fault (Option Drop) := do
  if d.disposal.kind = .never then return none
  let type ← liftType (m.typeName d.type)
  return some {
    callee := if d.isPartial then s!"{type}.drop_rest" else s!"{type}.drop"
    binding := binding
    guard := d.disposal.flag?.map DropFlag.name }

/-- The drops at the end of several lifetimes, the last binding first. -/
def drops (p : FunctionPlan) (m : TypeModel) (ending : List String) : Except Fault (List Drop) := do
  let all ← ending.reverse.mapM fun n => (p.plansOf n).mapM fun e => dropOf m n e.2
  return all.flatten.filterMap id

def successor (p : FunctionPlan) (m : TypeModel) (bindings : List (String × Binding)) (e : Edge) :
    Except Fault Successor := do
  let ending := (bindings.filter fun b => b.2.inRegion e.src && !b.2.inRegion e.dst).map Prod.fst
  if ending.any p.owes then return .through e.src e.dst (← p.drops m ending)
  return .direct e.dst

def skeletonBlock (p : FunctionPlan) (m : TypeModel) (bindings : List (String × Binding))
    (id : BlockId) (b : Block) : Except Fault SkeletonBlock := do
  let ending ← if b.isExit then
      (p.drops m ((bindings.filter fun x => x.2.inRegion id).map Prod.fst)).map Ending.ret
    else (b.edges.mapM (p.successor m bindings)).map Ending.go
  return { id := id, steps := b.sites.flatMap p.siteSteps, ending := ending }

end FunctionPlan

namespace Function

def danglingEdge? (f : Function) : Option Edge :=
  (f.blocks.values.flatMap Block.edges).find? fun e => !f.hasBlock e.dst

def skeleton (f : Function) (m : TypeModel) (p : FunctionPlan) : Except Fault Skeleton := do
  let _ ← f.getBlock f.entry
  let bindings ← f.bindingOrder.mapM fun n => do
    let name ← optionOr (.noBinding none) n
    return (name, ← f.getBinding name)
  let blocks ← f.orderedBlocks.mapM fun id => do
    p.skeletonBlock m bindings id (← f.getBlock id)
  return {
    slots := bindings.map Prod.fst
    flags := p.flags.map fun flag => { name := flag.name, initially := flag.declSite.isNone }
    entry := f.entry
    blocks := blocks }

end Function
end MovePlan
