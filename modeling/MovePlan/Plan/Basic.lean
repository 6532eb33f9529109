import MovePlan.Analysis.LastUse
import MovePlan.Analysis.MoveState
import MovePlan.Analysis.Ownership

set_option autoImplicit false

/-!
# Plans

A plan tells a code generator, for one function, what to emit at each use site, what to destroy where
a lifetime ends, and how to write into a destination that may hold a value.
-/
namespace MovePlan

inductive DecisionKind
  | constructByMove
  | constructByCopy
  | plainRefPass
  | moveRefPass
deriving DecidableEq, Inhabited

def DecisionKind.label : DecisionKind → String
  | constructByMove => "construct_by_move"
  | constructByCopy => "construct_by_copy"
  | plainRefPass => "plain_ref_pass"
  | moveRefPass => "move_ref_pass"

def Passing.toDecision : Passing → DecisionKind
  | move => .constructByMove
  | copy => .constructByCopy
  | plainRef => .plainRefPass
  | moveRef => .moveRefPass

inductive DecisionReason
  | inPlace
  | plainRef
  | forwarding
  | forwardedReturn
  | fallback
  | ordinary
  | temporary
  | borrowed
  | captured
  | inlineForwarding
  | forwarded
  | explicit
  | fieldBlocked
  | lastUse
  | addressTaken
  | labelLoop
  | liveAfter
deriving DecidableEq, Inhabited

def DecisionReason.label : DecisionReason → String
  | inPlace => "in-place"
  | plainRef => "plain-ref"
  | forwarding => "forwarding"
  | forwardedReturn => "forwarded-return"
  | fallback => "fallback"
  | ordinary => "ordinary"
  | temporary => "temporary"
  | borrowed => "borrowed"
  | captured => "captured"
  | inlineForwarding => "inline-forwarding"
  | forwarded => "forwarded"
  | explicit => "explicit"
  | fieldBlocked => "field-blocked"
  | lastUse => "last-use"
  | addressTaken => "address-taken"
  | labelLoop => "label-loop"
  | liveAfter => "live-after"

structure UseDecision where
  kind : DecisionKind
  transfers : Bool := false
  reason : DecisionReason
deriving DecidableEq, Inhabited

inductive DestroyKind
  | always
  | never
  | guarded
deriving DecidableEq, Inhabited

def DestroyKind.label : DestroyKind → String
  | always => "always_destroy"
  | never => "never_destroy"
  | guarded => "guarded_destroy"

structure ClearPoint where
  site : SiteId
  block : BlockId
  beforeCall : Bool := false
deriving DecidableEq, Inhabited

structure SetPoint where
  site : SiteId
  block : BlockId
deriving DecidableEq, Inhabited

/-- A run-time flag "destruction is still owed" for one place. It is set at the declaration, or on
entry to the function for a parameter, and read at every end of the lifetime. -/
structure DropFlag where
  name : String
  place : Place
  declSite : Option SiteId
  clears : List ClearPoint := []
  sets : List SetPoint := []
deriving DecidableEq, Inhabited

/-- What happens to a place at the end of its lifetime. -/
inductive Disposal
  | always
  | never
  | guarded (flag : DropFlag)
deriving DecidableEq, Inhabited

namespace Disposal

def kind : Disposal → DestroyKind
  | always => .always
  | never => .never
  | guarded _ => .guarded

def flag? : Disposal → Option DropFlag
  | guarded f => some f
  | _ => none

end Disposal

inductive DestroyReason
  | fallback
  | borrowed
  | captured
  | trivial
  | dominatingMove
  | movedOnAllExits
  | noLiveExit
  | validOnAllExits
  | neverMoved
  | mixedExits
deriving DecidableEq, Inhabited

def DestroyReason.label : DestroyReason → String
  | fallback => "fallback"
  | borrowed => "borrowed"
  | captured => "captured"
  | trivial => "trivial"
  | dominatingMove => "dominating-move"
  | movedOnAllExits => "moved-on-all-exits"
  | noLiveExit => "no-live-exit"
  | validOnAllExits => "valid-on-all-exits"
  | neverMoved => "never-moved"
  | mixedExits => "mixed-exits"

structure DestructionPlan where
  type : TypeId
  disposal : Disposal
  /-- Some field paths of the place have plans of their own; only the rest is destroyed. -/
  isPartial : Bool := false
  reason : DestroyReason
deriving DecidableEq, Inhabited

structure AssignPlan where
  place : Place
  order : AssignOrder
  /-- The condition of the destination just before the write. -/
  destState : MoveState
  dispose : DestroyKind
  flag : Option String := none
  sourceSite : Option SiteId
deriving DecidableEq, Inhabited

structure FunctionPlan where
  name : String
  decisions : OrderedMap SiteId UseDecision := .empty
  destruction : OrderedMap Place DestructionPlan := .empty
  assigns : OrderedMap SiteId AssignPlan := .empty
  diagnostics : List Diagnostic := []
  /-- The function is not optimised. -/
  excluded : Bool := false
  facts : Option LastUseFacts := none
  nested : List FunctionPlan := []
deriving Inhabited

namespace FunctionPlan

def flags (p : FunctionPlan) : List DropFlag :=
  p.destruction.values.filterMap fun d => d.disposal.flag?

def moves (p : FunctionPlan) : List SiteId :=
  (p.decisions.entries.filter (·.2.transfers)).map Prod.fst

def decision (p : FunctionPlan) (site : SiteId) : Except Fault UseDecision :=
  optionOr (.noDecision site) (p.decisions.get? site)

def destructionOf (p : FunctionPlan) (place : Place) : Except Fault DestructionPlan :=
  optionOr (.noPlace place) (p.destruction.get? place)

def nestedPlan (p : FunctionPlan) (name : String) : Except Fault FunctionPlan :=
  optionOr (.noNested p.name name) (p.nested.find? (·.name = name))

/-- The plans of a binding's places, field paths before shorter ones. -/
def plansOf (p : FunctionPlan) (binding : String) : List (Place × DestructionPlan) :=
  sortBy (fun a b => decide (b.1.path.length ≤ a.1.path.length))
    (p.destruction.entries.filter (·.1.binding = binding))

end FunctionPlan
end MovePlan
