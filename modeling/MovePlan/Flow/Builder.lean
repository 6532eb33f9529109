import MovePlan.Flow.Function

set_option autoImplicit false

/-!
# Building functions block by block

A builder adds sites to the current block, and adds blocks and edges as branches, loops and scopes are
entered and left. After a return or a jump there is no current block; the next site then opens a block
that nothing leads to. A local lives in the blocks that were opened while its scope was open.
-/
namespace MovePlan

inductive BuildError
  | duplicateBinding (name function : String)
  | badForward (name : String)
  | badReference (text : String)
  | badOperator (op : String)
  | duplicateLabel (label function : String)
  /-- A call lists fewer passing modes than arguments. -/
  | noMode
  /-- A break or a continue asks for an enclosing loop that does not exist. -/
  | noLoop
  | type (error : TypeError)
deriving DecidableEq, Inhabited

def BuildError.message? : BuildError → Option String
  | duplicateBinding n f => s!"duplicate binding '{n}' in '{f}'"
  | badForward n => s!"only move-ref parameters can be forwarded ('{n}')"
  | badReference t => s!"invalid binding reference '{t}'"
  | badOperator op => s!"unknown short-circuit operator '{op}'"
  | duplicateLabel l f => s!"duplicate label '{l}' in '{f}'"
  | noMode | noLoop => "list index out of range"
  | type e => e.message?

/-- A scope that is open: the blocks opened in it so far, and the locals declared in it. -/
structure OpenScope where
  blocks : List BlockId
  locals : List String := []
deriving DecidableEq, Inhabited

/-- Block ids and site ids count up from zero. The innermost scope stands first. -/
structure Builder where
  function : Function
  nextBlock : Nat
  nextSite : Nat := 0
  current : Option BlockId
  scopes : List OpenScope := []
  labels : List (String × BlockId) := []
  /-- The jumps whose edges are still to be drawn. -/
  jumps : List (BlockId × String) := []
deriving Inhabited

abbrev Extend := StateM Builder

/-- A step of building. What it has added before a failure stays. -/
abbrev Build := ExceptT BuildError Extend

namespace Builder

def start (name : String) (captures : OrderedMap String TypeId) : Builder :=
  { function :=
      { name := name
        blocks := OrderedMap.empty.put 0 {}
        bindings := captures.mapEntries fun name type => { name := name, type := type, captured := true }
        captures := captures.keys }
    nextBlock := 1
    current := some 0 }

def openBlock (label : Option String) (b : Builder) : BlockId × Builder :=
  let id : BlockId := b.nextBlock
  (id, { b with
    function := { b.function with blocks := b.function.blocks.put id { label := label } }
    nextBlock := b.nextBlock + 1
    scopes := b.scopes.map fun s => { s with blocks := s.blocks ++ [id] } })

def mapBlock (id : BlockId) (change : Block → Block) (b : Builder) : Builder :=
  let blk := (b.function.block? id).getD {}
  { b with function := { b.function with blocks := b.function.blocks.put id (change blk) } }

def addEdge (src dst : BlockId) (kind : EdgeKind) (label : Option String) (b : Builder) : Builder :=
  b.mapBlock src fun blk =>
    { blk with edges := blk.edges ++ [{ src := src, dst := dst, kind := kind, label := label }] }

def moveTo (current : Option BlockId) (b : Builder) : Builder := { b with current := current }

def pushScope (first : BlockId) (b : Builder) : Builder :=
  { b with scopes := { blocks := [first] } :: b.scopes }

/-- Closes the innermost scope: its blocks are the region of its locals. -/
def popScope (b : Builder) : Builder :=
  match b.scopes with
  | [] => b
  | s :: rest =>
    let close (bindings : OrderedMap String Binding) (name : String) :=
      match bindings.get? name with
      | some x => bindings.put name { x with region := some s.blocks }
      | none => bindings
    { b with
      scopes := rest
      function := { b.function with bindings := s.locals.foldl close b.function.bindings } }

/-- Draws the edges of jumps. A jump to a label that is not there leads to a block that is not there. -/
def drawJumps (dangling : BlockId) : List (BlockId × String) → Builder → Builder
  | [], b => b
  | (src, label) :: rest, b =>
    match lastWrite label b.labels with
    | some dst => drawJumps dangling rest (b.addEdge src dst .jump (some label))
    | none => drawJumps (dangling + 1) rest (b.addEdge src dangling .jump (some label))

def finish (b : Builder) : Builder :=
  let b := { b.drawJumps b.nextBlock b.jumps with jumps := [] }
  let names := b.function.capturedNames
  let mark (name : String) (x : Binding) : Binding :=
    if name ∈ names then { x with captured := true } else x
  { b with function := { b.function with bindings := b.function.bindings.mapEntries mark } }

end Builder

namespace Build

def openBlock (label : Option String) : Extend BlockId := fun b => b.openBlock label

def addEdge (src dst : BlockId) (kind : EdgeKind) (label : Option String) : Extend Unit :=
  modify (Builder.addEdge src dst kind label)

def moveTo (current : Option BlockId) : Extend Unit := modify (Builder.moveTo current)

/-- The current block, or a new one that nothing leads to. -/
def currentBlock : Extend BlockId := do
  match (← get).current with
  | some id => return id
  | none =>
    let id ← openBlock none
    moveTo (some id)
    return id

/-- Opens a block and continues in it. An edge leads there from the current block, if there is one. -/
def continueInBlock (label : Option String) : Extend BlockId := do
  let before := (← get).current
  let id ← openBlock label
  match before with
  | some src => addEdge src id .normal none
  | none => pure ()
  moveTo (some id)
  return id

def requireFresh (name : String) : Build Unit := do
  let f := (← get).function
  if f.bindings.contains name then throw (.duplicateBinding name f.name)

def addBinding (name : String) (x : Binding) : Extend Unit :=
  modify fun b => { b with function := { b.function with bindings := b.function.bindings.put name x } }

def param (name : String) (type : TypeId) (mode : PassMode) (forwards : Bool) : Build Unit := do
  requireFresh name
  if forwards && mode ≠ .moveRef then throw (.badForward name)
  addBinding name { name := name, type := type, isParam := true, mode := mode }
  modify fun b =>
    let f := b.function
    { b with function := { f with
        params := f.params ++ [name]
        forwards := if forwards then f.forwards ++ [(f.params.length : Int)] else f.forwards } }

def addSite (s : Site) : Extend Site := do
  let block ← currentBlock
  let b ← get
  let site : Site :=
    { s with id := b.nextSite, block := block, index := ((b.function.sitesAt block).length : Int) }
  set { b.mapBlock block (fun blk => { blk with sites := blk.sites ++ [site] }) with
    nextSite := b.nextSite + 1 }
  return site

def unplaced (kind : SiteKind) (binding : Option String) : Site :=
  { id := 0, block := 0, index := 0, kind := kind, binding := binding }

def place (ref : String) : Build Place :=
  match Place.ofText? ref with
  | some p => return p
  | none => throw (.badReference ref)

/-- Declares a local in the innermost scope. Outside all scopes it lives in the whole function. -/
def declare (name : String) (type : TypeId) : Build Site := do
  requireFresh name
  addBinding name { name := name, type := type }
  modify fun b => { b with scopes := match b.scopes with
    | [] => []
    | s :: rest => { s with locals := s.locals ++ [name] } :: rest }
  addSite (unplaced .decl (some name))

inductive Access
  | read
  | write
  | addrOf
deriving DecidableEq, Inhabited

def Access.kind : Access → SiteKind
  | read => .read
  | write => .write
  | addrOf => .addrOf

def access (a : Access) (ref : String) : Build Site := do
  let p ← place ref
  addSite { unplaced a.kind (some p.binding) with path := p.path }

/-- What a call or an assignment consumes: a place, or a temporary of some type. -/
inductive Source (τ : Type)
  | place (ref : String)
  | temp (type : τ)
deriving DecidableEq, Inhabited

def moveOut (source : Source TypeId) (target : Option Target) (explicit viaForward : Bool) :
    Build Site := do
  match source with
  | .temp type => addSite { unplaced .moveOut none with target := target, tempType := some type }
  | .place ref =>
    let p ← place ref
    addSite { unplaced .moveOut (some p.binding) with
      path := p.path, target := target, explicit := explicit, viaForward := viaForward }

structure CallForm where
  callee : String
  modes : Option (List PassMode) := none
  mayFail : Bool := false
  forwarding : List Int := []
  explicit : List Int := []
deriving DecidableEq, Inhabited

def CallForm.mode? (c : CallForm) (index : Nat) : Option PassMode :=
  match c.modes with
  | none => some .value
  | some modes => modes[index]?

def call (c : CallForm) : Nat → List (Source TypeId) → Build (List Site)
  | _, [] => return []
  | index, arg :: rest => do
    let mode ← match c.mode? index with
      | some m => pure m
      | none => throw .noMode
    let target := Target.argument c.callee index mode c.mayFail (c.forwarding.contains (index : Int))
    let site ← moveOut arg (some target) (c.explicit.contains (index : Int)) false
    let sites ← call c (index + 1) rest
    return site :: sites

def assign (dest : String) (source : Source TypeId) (explicit : Bool) : Build Site := do
  let p ← place dest
  let _ ← moveOut source (some (Target.assignment p.binding)) explicit false
  access .write dest

def returnAll (mode : PassMode) : List (Source TypeId) → Build (List Site)
  | [] => return []
  | source :: rest => do
    let site ← moveOut source (some (Target.returned mode)) false false
    let sites ← returnAll mode rest
    return site :: sites

def ret (mode : PassMode) (sources : List (Source TypeId)) : Build (List Site) := do
  let sites ← returnAll mode sources
  let _ ← currentBlock
  moveTo none
  return sites

def label (name : String) : Build BlockId := do
  let b ← get
  if (lastWrite name b.labels).isSome then throw (.duplicateLabel name b.function.name)
  let id ← continueInBlock (some name)
  modify fun b => { b with labels := b.labels ++ [(name, id)] }
  return id

def addJump (src : BlockId) (name : String) : Extend Unit :=
  modify fun b => { b with jumps := b.jumps ++ [(src, name)] }

def jump (name : String) : Extend Unit := do
  addJump (← currentBlock) name
  moveTo none

def jumpIf (name : String) : Extend Unit := do
  let src ← currentBlock
  addJump src name
  let next ← openBlock none
  addEdge src next .onFalse none
  moveTo (some next)

def openArms : Extend (BlockId × BlockId) := do
  let cond ← currentBlock
  let onTrue ← openBlock none
  let onFalse ← openBlock none
  addEdge cond onTrue .onTrue none
  addEdge cond onFalse .onFalse none
  moveTo none
  return (onTrue, onFalse)

def enterArm (first : BlockId) : Extend Unit :=
  modify fun b => (b.pushScope first).moveTo (some first)

/-- Leaves an arm; answers the block in which it ends, if it goes on from there. -/
def leaveArm : Extend (Option BlockId) := fun b => (b.current, b.popScope.moveTo none)

def joinArms (ends : List BlockId) : Extend Unit := do
  let join ← openBlock none
  modify fun b => ends.foldl (fun b src => b.addEdge src join .normal none) b
  moveTo (some join)

structure LoopBlocks where
  header : BlockId
  exit : BlockId
deriving DecidableEq, Inhabited

def readAll : List String → Build Unit
  | [] => return ()
  | ref :: rest => do
    let _ ← access .read ref
    readAll rest

/-- Opens the header, which reads the condition, then the body and the exit. The body is a scope. -/
def enterLoop (cond : List String) : Build LoopBlocks := do
  let before ← currentBlock
  let header ← openBlock none
  addEdge before header .normal none
  moveTo (some header)
  readAll cond
  let body ← openBlock none
  let exit ← openBlock none
  addEdge header body .onTrue none
  addEdge header exit .onFalse none
  modify fun b => (b.pushScope body).moveTo (some body)
  return { header := header, exit := exit }

def leaveLoop (blocks : LoopBlocks) : Extend Unit := do
  modify Builder.popScope
  match (← get).current with
  | some last => addEdge last blocks.header .back none
  | none => pure ()
  moveTo (some blocks.exit)

def breakLoop (blocks : LoopBlocks) : Extend Unit := do
  addEdge (← currentBlock) blocks.exit .normal none
  moveTo none

def breakLoopIf (blocks : LoopBlocks) : Extend Unit := do
  let src ← currentBlock
  let next ← openBlock none
  addEdge src blocks.exit .onTrue none
  addEdge src next .onFalse none
  moveTo (some next)

def continueLoop (blocks : LoopBlocks) : Extend Unit := do
  addEdge (← currentBlock) blocks.header .back none
  moveTo none

def enterScope : Extend Unit := do
  let first ← continueInBlock none
  modify (Builder.pushScope first)

def leaveScope : Extend Unit := do
  modify Builder.popScope
  let _ ← continueInBlock none

/-- Enters the right operand of a short-circuit operator, which an edge leads around. -/
def enterOperand (op : String) : Build BlockId := do
  let kind ← if op = "&&" then pure EdgeKind.onTrue
    else if op = "||" then pure EdgeKind.onFalse
    else throw (.badOperator op)
  let left ← currentBlock
  let right ← openBlock none
  let join ← openBlock none
  addEdge left right kind none
  addEdge left join .skip none
  moveTo (some right)
  return join

def leaveOperand (join : BlockId) : Extend Unit := do
  match (← get).current with
  | some last => addEdge last join .normal none
  | none => pure ()
  moveTo (some join)

/-- The types of captured bindings, each of which is read here. An unknown binding has the type id
minus one, which is never valid. -/
def capture (types : OrderedMap String TypeId) : List String → Build (OrderedMap String TypeId)
  | [] => return types
  | name :: rest => do
    let type := (((← get).function.binding? name).map Binding.type).getD (-1)
    let _ ← access .read name
    capture (types.put name type) rest

def addNested (inner : Function) : Extend Unit :=
  modify fun b => { b with function := { b.function with nested := b.function.nested ++ [inner] } }

end Build
end MovePlan
