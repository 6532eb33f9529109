import MovePlan.Flow.Fixpoint
import MovePlan.Flow.Function

set_option autoImplicit false

namespace MovePlan
namespace Function

def edgeCount (f : Function) : Nat :=
  f.blocks.values.foldr (fun b n => b.edges.length + n) 0

/-- Works through a stack of blocks to visit. Each step takes one entry off the stack, and each block
puts its successors on it once. -/
def visit (f : Function) : Nat → List BlockId → List BlockId → List BlockId
  | 0, _, seen => seen
  | _ + 1, [], seen => seen
  | fuel + 1, b :: stack, seen =>
    if b ∈ seen then visit f fuel stack seen
    else match f.block? b with
      | none => visit f fuel stack seen
      | some blk => visit f fuel (blk.successors ++ stack) (b :: seen)

/-- The blocks that a walk from `root` can come to, `root` among them. -/
def reachableFrom (f : Function) (root : BlockId) : List BlockId :=
  f.visit (f.edgeCount + 2) [root] []

def reachable (f : Function) : List BlockId := f.reachableFrom f.entry

def predecessors (f : Function) (b : BlockId) : List BlockId :=
  sortInts ((f.blocks.entries.filter fun p => p.2.edges.any (·.dst = b)).map Prod.fst)

/-- Depth-first search with the successors that each open block has still to look at. A block whose
successors are done goes in front of the blocks that were done before it. -/
def search (f : Function) :
    Nat → List (BlockId × List BlockId) → List BlockId → List BlockId → List BlockId
  | 0, _, _, done => done
  | _ + 1, [], _, done => done
  | fuel + 1, (b, []) :: stack, seen, done => search f fuel stack seen (b :: done)
  | fuel + 1, (b, s :: rest) :: stack, seen, done =>
    if f.hasBlock s && !seen.contains s then
      search f fuel ((s, f.successors s) :: (b, rest) :: stack) (s :: seen) done
    else search f fuel ((b, rest) :: stack) seen done

/-- The reachable blocks, each before the blocks that it leads to unless they lead back to it. -/
def reversePostOrder (f : Function) : List BlockId :=
  if f.hasBlock f.entry then
    f.search (f.edgeCount + f.blocks.size + 1) [(f.entry, f.successors f.entry)] [f.entry] []
  else []

def orderedBlocks (f : Function) : List BlockId :=
  let reached := f.reversePostOrder
  reached ++ f.sortedIds.filter fun b => !reached.contains b

end Function

structure BlockGraph where
  order : List BlockId
  reached : List BlockId
  preds : ValueTable BlockId (List BlockId)
deriving Inhabited

def Function.graph (f : Function) : BlockGraph :=
  { order := f.orderedBlocks
    reached := f.reachable
    preds := .fill f.orderedBlocks f.predecessors }

namespace BlockGraph

def predsOf (g : BlockGraph) (b : BlockId) : List BlockId := g.preds.at? [] b

def reachedPreds (g : BlockGraph) (b : BlockId) : List BlockId :=
  (g.predsOf b).filter g.reached.contains

end BlockGraph
end MovePlan
