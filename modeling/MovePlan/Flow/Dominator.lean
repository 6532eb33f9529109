import MovePlan.Flow.Graph
import MovePlan.Flow.Fixpoint

set_option autoImplicit false

namespace MovePlan

structure Dominators where
  entry : BlockId
  sets : ValueTable BlockId (List BlockId)
deriving Inhabited

namespace Dominators

def of (d : Dominators) (b : BlockId) : List BlockId := d.sets.at? [] b

def dominates (d : Dominators) (a b : BlockId) : Bool := (d.of b).contains a

def siteDominates (d : Dominators) (a b : Site) : Bool :=
  if a.block = b.block then decide (a.index ≤ b.index) else d.dominates a.block b.block

def strict (d : Dominators) (b : BlockId) : List BlockId := (d.of b).filter (· ≠ b)

/-- The strict dominator of `b` that all its other strict dominators dominate. -/
def immediate? (d : Dominators) (b : BlockId) : Option BlockId :=
  if b = d.entry then none
  else
    let others := (d.strict b).map fun e => (e, d.of e)
    (sortInts (d.strict b)).find? fun c => others.all fun e => c = e.1 || !e.2.contains c

end Dominators

namespace Function

def dominatorStep (entry : BlockId) (g : BlockGraph) (sets : BlockId → List BlockId)
    (b : BlockId) : List BlockId :=
  if b = entry then [b]
  else
    let preds := g.reachedPreds b
    if !g.reached.contains b || preds.isEmpty then [b]
    else
      let above := preds.map sets
      g.order.filter fun a => a = b || above.all (·.contains a)

def dominators (f : Function) : Dominators :=
  let g := f.graph
  let start := ValueTable.fill g.order fun b =>
    if b = f.entry then [b] else g.order.filter g.reached.contains
  let rounds := g.order.length * g.order.length + 1
  let sets := start.settle [] (dominatorStep f.entry g) g.order rounds
  { entry := f.entry
    sets := if f.hasBlock f.entry then sets else (f.entry, [f.entry]) :: sets }

end Function
end MovePlan
