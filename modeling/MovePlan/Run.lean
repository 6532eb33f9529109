import MovePlan.Plan.Basic

set_option autoImplicit false

/-!
# Running a plan along one path

A run follows chosen edges from the entry to a return. It keeps the drop flags, and notes which places
are destroyed and which are not at the end of each lifetime.
-/
namespace MovePlan

inductive RunError
  | missingBlock (function : String) (block : BlockId)
  | noEdge (block : BlockId) (choice : Int)
  | noExit (function : String) (steps : Int)
  | fault (f : Fault)
deriving DecidableEq, Inhabited

def RunError.message? : RunError → Option String
  | missingBlock f b => (Numeral.text? b).map fun b => s!"path leaves '{f}' at missing block bb{b}"
  | noEdge b c => do
    let b ← Numeral.text? b
    let c ← Numeral.text? c
    return s!"bb{b} has no edge #{c}"
  | noExit f n => (Numeral.text? n).map fun n => s!"no exit reached in '{f}' after {n} steps"
  | fault f => f.message?

inductive Choice
  | always (edge : Int)
  /-- One edge for each visit; the last one is repeated. -/
  | visits (edges : List Int)
deriving DecidableEq, Inhabited

namespace Choice

def edge? : Choice → Option Int
  | always e => some e
  | visits es => es.head?

def next : Choice → Choice
  | visits (_ :: e :: es) => visits (e :: es)
  | c => c

end Choice

/-- The choices of a run. A block that is not listed takes its first edge. -/
abbrev Choices := OrderedMap BlockId Choice

namespace Choices

def choiceAt (c : Choices) (id : BlockId) : Choice := (c.get? id).getD (.always 0)

def visit (c : Choices) (id : BlockId) : Choices := c.put id (c.choiceAt id).next

end Choices

abbrev FlagValues := OrderedMap String Bool

structure Run where
  blocks : Array BlockId := #[]
  destroyed : Array Place := #[]
  elided : Array Place := #[]
  moved : Array SiteId := #[]
  flags : FlagValues := .empty

namespace FunctionPlan

def clearedAt (p : FunctionPlan) (site : SiteId) : List String :=
  p.flags.flatMap fun flag => (flag.clears.filter (·.site = site)).map fun _ => flag.name

def setAt (p : FunctionPlan) (site : SiteId) : List String :=
  p.flags.flatMap fun flag =>
    (if flag.declSite = some site then [flag.name] else []) ++
      (flag.sets.filter (·.site = site)).map fun _ => flag.name

def initialFlags (p : FunctionPlan) : FlagValues :=
  p.flags.foldl (fun m flag => m.put flag.name flag.declSite.isNone) .empty

end FunctionPlan

def FlagValues.setAll (flags : FlagValues) (names : List String) (v : Bool) : FlagValues :=
  names.foldl (fun m n => m.put n v) flags

namespace Run

def passSite (p : FunctionPlan) (r : Run) (s : Site) : Run :=
  -- a flag that a site both clears and sets is set afterwards
  let flags := (FlagValues.setAll r.flags (p.clearedAt s.id) false).setAll (p.setAt s.id) true
  let moves := ((p.decisions.get? s.id).map UseDecision.transfers).getD false
  { r with flags := flags, moved := if moves then r.moved.push s.id else r.moved }

def owes (r : Run) (d : DestructionPlan) : Bool :=
  match d.disposal with
  | .always => true
  | .never => false
  | .guarded flag => (r.flags.get? flag.name).getD false

/-- Ends the lifetimes of bindings, the last one first. -/
def endScope (p : FunctionPlan) (r : Run) (names : List String) : Run :=
  (names.reverse.flatMap p.plansOf).foldl (fun r (place, d) =>
    if r.owes d then { r with destroyed := r.destroyed.push place }
    else { r with elided := r.elided.push place }) r

end Run

namespace Function

/-- The parameters, then a name for every declaration. -/
def lifetimeOrder (f : Function) : List String :=
  f.params ++ (f.allSites.filter (·.kind = .decl)).filterMap Site.binding

def bindingsWhere (f : Function) (test : Binding → Bool) (names : List String) :
    Except Fault (List String) := do
  let tests ← names.mapM fun n => do return (n, test (← f.getBinding n))
  return (tests.filter (·.2)).map Prod.fst

def endingAtReturn (f : Function) (names : List String) (block : BlockId) :
    Except Fault (List String) :=
  f.bindingsWhere (·.inRegion block) names

def endingOnEdge (f : Function) (names : List String) (src dst : BlockId) :
    Except Fault (List String) :=
  f.bindingsWhere (fun b => b.inRegion src && !b.inRegion dst) names

def liftFault {α : Type} : Except Fault α → Except RunError α
  | .ok a => .ok a
  | .error e => .error (.fault e)

/-- The edge that a choice names. A negative number counts from the last edge. -/
def chooseEdge (choice : Choice) (id : BlockId) (edges : List Edge) : Except RunError Edge :=
  match choice.edge? with
  | none => .error (.fault .noPosition)
  | some c =>
    if c ≥ (edges.length : Int) then .error (.noEdge id c)
    else match entryAt? edges c with
      | none => .error (.fault .noPosition)
      | some e => .ok e

/-- Runs from a block, where `r` is the run up to it. The bindings of `order` end their lifetimes from
the last to the first; `limit` is the number of blocks that the whole run may have. -/
def runFrom (f : Function) (p : FunctionPlan) (order : List String) (limit : Int) :
    Nat → BlockId → Choices → Run → Except RunError Run
  | 0, _, _, _ => .error (.noExit f.name limit)
  | fuel + 1, id, choices, r =>
    match f.block? id with
    | none => .error (.missingBlock f.name id)
    | some blk => do
      let r := blk.sites.foldl (Run.passSite p) { r with blocks := r.blocks.push id }
      if blk.isExit then
        let names ← liftFault (f.endingAtReturn order id)
        return r.endScope p names
      -- lifetimes end on the edge, with the flags as the sites of the block have left them
      let e ← chooseEdge (choices.choiceAt id) id blk.edges
      let names ← liftFault (f.endingOnEdge order id e.dst)
      runFrom f p order limit fuel e.dst (choices.visit id) (r.endScope p names)

def run (f : Function) (p : FunctionPlan) (choices : Choices) (limit : Int) : Except RunError Run :=
  f.runFrom p f.lifetimeOrder limit limit.toNat f.entry choices { flags := p.initialFlags }

end Function
end MovePlan
