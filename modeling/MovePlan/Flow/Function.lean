import MovePlan.OrderedMap
import MovePlan.Flow.Site

set_option autoImplicit false

namespace MovePlan

inductive EdgeKind
  | normal
  | onTrue
  | onFalse
  | back
  /-- A jump to a label. -/
  | jump
  /-- The way around the right operand of a short-circuit operator. -/
  | skip
deriving DecidableEq, Inhabited

namespace EdgeKind

def label : EdgeKind → String
  | normal => "normal"
  | onTrue => "true"
  | onFalse => "false"
  | back => "back"
  | jump => "jump"
  | skip => "skip"

def ofLabel? (l : String) : Option EdgeKind :=
  [normal, onTrue, onFalse, back, jump, skip].find? (·.label = l)

end EdgeKind

structure Edge where
  src : BlockId
  dst : BlockId
  kind : EdgeKind := .normal
  label : Option String := none
deriving DecidableEq, Inhabited

structure Block where
  label : Option String := none
  sites : List Site := []
  edges : List Edge := []
  span : Span := {}
deriving DecidableEq, Inhabited

def Block.isExit (b : Block) : Bool := b.edges.isEmpty

def Block.successors (b : Block) : List BlockId := b.edges.map Edge.dst

/-- A function keeps a binding under a key. Its own name is the key wherever functions are built or
read, but nothing compels it to be. -/
structure Binding where
  name : String
  type : TypeId
  isParam : Bool := false
  mode : PassMode := .value
  /-- The blocks of the binding's scope; nothing for the whole function. -/
  region : Option (List BlockId) := none
  captured : Bool := false
  span : Span := {}
deriving DecidableEq, Inhabited

def Binding.inRegion (b : Binding) (block : BlockId) : Bool :=
  match b.region with
  | none => true
  | some r => r.contains block

structure Function where
  name : String
  entry : BlockId := 0
  blocks : OrderedMap BlockId Block := .empty
  bindings : OrderedMap String Binding := .empty
  params : List String := []
  /-- The positions of the move-reference parameters that the function returns as they came. -/
  forwards : List Int := []
  /-- The bindings of the enclosing function that this one uses. -/
  captures : List String := []
  nested : List Function := []
  span : Span := {}
deriving Inhabited

namespace Function

def block? (f : Function) (id : BlockId) : Option Block := f.blocks.get? id

def hasBlock (f : Function) (id : BlockId) : Bool := f.blocks.contains id

def binding? (f : Function) (name : String) : Option Binding := f.bindings.get? name

def sortedBlocks (f : Function) : List (BlockId × Block) :=
  sortBy (fun a b => decide (a.1 ≤ b.1)) f.blocks.entries

def sortedIds (f : Function) : List BlockId := f.sortedBlocks.map Prod.fst

def sitesAt (f : Function) (id : BlockId) : List Site :=
  ((f.block? id).map Block.sites).getD []

def edgesAt (f : Function) (id : BlockId) : List Edge :=
  ((f.block? id).map Block.edges).getD []

def successors (f : Function) (id : BlockId) : List BlockId := (f.edgesAt id).map Edge.dst

/-- All sites, block by block in increasing order of the block ids. -/
def allSites (f : Function) : List Site := f.sortedBlocks.flatMap fun b => b.2.sites

def sitesOf (f : Function) (name : String) : List Site :=
  f.allSites.filter (·.binding = some name)

def site? (f : Function) (id : SiteId) : Option Site := f.allSites.find? (·.id = id)

def labelBlock? (f : Function) (label : String) : Option BlockId :=
  (f.sortedBlocks.find? (·.2.label = some label)).map Prod.fst

def exitBlocks (f : Function) : List BlockId :=
  (f.sortedBlocks.filter (·.2.isExit)).map Prod.fst

/-- The names of the bindings that are marked as captured or that a nested function captures. -/
def capturedNames (f : Function) : List String :=
  (f.bindings.values.filter Binding.captured).map Binding.name ++ f.nested.flatMap Function.captures

end Function
end MovePlan
