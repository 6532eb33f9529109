import MovePlan.Lowering.Skeleton

set_option autoImplicit false

/-!
# Code in basic blocks

Blocks and instructions are numbered in the order in which they are made, which is not the order in
which they are printed. Names are given later, from this order.
-/
namespace MovePlan

inductive IrType
  | void
  | i1
  | i32
  | i8Ptr
deriving DecidableEq, Inhabited

structure Signature where
  result : IrType
  args : List IrType
deriving DecidableEq, Inhabited

abbrev BlockNo := Nat
abbrev ValueNo := Nat

inductive Operand
  | number (n : Int)
  | slot (v : ValueNo)
deriving DecidableEq, Inhabited

inductive Instr
  | allocSlot
  | allocFlag
  | store (value : Bool) (flag : ValueNo)
  | load (flag : ValueNo)
  | call (callee : String) (result : IrType) (args : List Operand)
  | branch (target : BlockNo)
  | branchIf (cond : ValueNo) (ifTrue ifFalse : BlockNo)
  /-- The cases are numbered from one. -/
  | switch (on : ValueNo) (type : IrType) (default : BlockNo) (cases : List BlockNo)
  | ret
deriving DecidableEq, Inhabited

inductive BlockName
  | plain (text : String)
  /-- The name of another block with a suffix. -/
  | suffixed (parent : BlockNo) (suffix : String)
deriving DecidableEq, Inhabited

/-- What is made: a block, or an instruction at the end of a block. -/
inductive Event
  | block (name : BlockName)
  | instr (at_ : BlockNo) (name : String) (i : Instr)
deriving DecidableEq, Inhabited

/-- A function of a module: declared only, or with the events that make its body. -/
inductive Global
  | declared (signature : Signature)
  | defined (events : List Event)
deriving DecidableEq, Inhabited

def Global.signature : Global → Signature
  | declared s => s
  | defined _ => { result := .void, args := [] }

structure Module where
  name : String
  globals : OrderedMap String Global := .empty

structure Draft where
  globals : OrderedMap String Global
  /-- The last event first. -/
  trail : List Event := []
  blocks : Nat := 0
  values : Nat := 0
  /-- The block at whose end instructions are put. -/
  here : BlockNo := 0

namespace Draft

def newBlock (d : Draft) (name : BlockName) : Draft × BlockNo :=
  ({ d with trail := .block name :: d.trail, blocks := d.blocks + 1 }, d.blocks)

def goTo (d : Draft) (b : BlockNo) : Draft := { d with here := b }

def emit (d : Draft) (name : String) (i : Instr) : Draft × ValueNo :=
  ({ d with trail := .instr d.here name i :: d.trail, values := d.values + 1 }, d.values)

def put (d : Draft) (i : Instr) : Draft := (d.emit "" i).1

/-- A function is declared when it is first called, unless there is one of its name. -/
def call (d : Draft) (callee : String) (s : Signature) (args : List Operand) : Draft × ValueNo :=
  match d.globals.get? callee with
  | some g => d.emit "" (.call callee g.signature.result args)
  | none =>
    ({ d with globals := d.globals.put callee (.declared s) } : Draft).emit ""
      (.call callee s.result args)

end Draft

/-- Where the slots, flags and blocks of a skeleton are found. -/
structure Layout where
  slots : List (String × ValueNo)
  flags : List (String × ValueNo)
  blocks : List (BlockId × BlockNo)
deriving DecidableEq, Inhabited

namespace Layout

def slot (l : Layout) (n : String) : ValueNo := (lastWrite n l.slots).getD 0
def flag (l : Layout) (n : String) : ValueNo := (lastWrite n l.flags).getD 0
def block (l : Layout) (id : BlockId) : BlockNo := (lastWrite id l.blocks).getD 0

end Layout

namespace Draft

def step (l : Layout) (d : Draft) : Step → Draft
  | .store flag value => d.put (.store value (l.flag flag))
  | .mark marker site => (d.call marker { result := .void, args := [.i32] } [.number site]).1

def dropCall (l : Layout) (d : Draft) (x : Drop) : Draft :=
  (d.call x.callee { result := .void, args := [.i8Ptr] } [.slot (l.slot x.binding)]).1

def declareDrop (d : Draft) (x : Drop) : Draft :=
  if d.globals.contains x.callee then d
  else { d with globals :=
      d.globals.put x.callee (.declared { result := .void, args := [.i8Ptr] }) }

/-- A guarded drop stands in a block of its own, and the code goes on in another. -/
def drop (l : Layout) (d : Draft) (x : Drop) : Draft :=
  match x.guard with
  | none => d.dropCall l x
  | some flag =>
    let parent := d.here
    -- the callee takes its place in the module before the guard is made
    let (d, owed) := (d.declareDrop x).emit "" (.load (l.flag flag))
    let (d, body) := d.newBlock (.suffixed parent ".if")
    let (d, rest) := d.newBlock (.suffixed parent ".endif")
    let d := d.put (.branchIf owed body rest)
    let d := ((d.goTo body).dropCall l x).put (.branch rest)
    d.goTo rest

/-- The block that an edge leads to; it is made if the edge owes drops. -/
def successor (l : Layout) (d : Draft) : Successor → Draft × BlockNo
  | .direct dst => (d, l.block dst)
  | .through src dst drops =>
    let (d, b) := d.newBlock (.plain s!"bb{src}.to.bb{dst}")
    let d := drops.foldl (drop l) (d.goTo b)
    (d.put (.branch (l.block dst)), b)

def successors (l : Layout) : List Successor → Draft → Draft × List BlockNo
  | [], d => (d, [])
  | s :: rest, d =>
    let (d, b) := d.successor l s
    let (d, bs) := successors l rest d
    (d, b :: bs)

def ending (l : Layout) (id : BlockId) (b : BlockNo) (d : Draft) : Ending → Draft
  | .ret drops => (drops.foldl (drop l) d).put .ret
  | .go succs =>
    let (d, targets) := successors l succs d
    -- the edges have their blocks by now, and the ending goes back to where it started
    let d := d.goTo b
    match targets with
    | [] => d
    | [t] => d.put (.branch t)
    | t :: cases =>
      let (d, answer) := d.call "movec.choose" { result := .i32, args := [.i32] } [.number id]
      -- the first declaration of the callee decides the type of the answer
      let type := match d.globals.get? "movec.choose" with
        | some g => g.signature.result
        | none => .i32
      d.put (.switch answer type t cases)

def block (l : Layout) (d : Draft) (x : SkeletonBlock) : Draft :=
  let b := l.block x.id
  (x.steps.foldl (step l) (d.goTo b)).ending l x.id b x.ending

def openBlocks : List BlockId → Draft → Draft × List (BlockId × BlockNo)
  | [], d => (d, [])
  | id :: rest, d =>
    let (d, b) := d.newBlock (.plain s!"bb{id}")
    let (d, bs) := openBlocks rest d
    (d, (id, b) :: bs)

def openSlots : List String → Draft → Draft × List (String × ValueNo)
  | [], d => (d, [])
  | n :: rest, d =>
    let (d, v) := d.emit n .allocSlot
    let (d, vs) := openSlots rest d
    (d, (n, v) :: vs)

/-- A flag is cleared, and set at once if it is set on entry. -/
def openFlags : List FlagSlot → Draft → Draft × List (String × ValueNo)
  | [], d => (d, [])
  | x :: rest, d =>
    let (d, v) := d.emit x.name .allocFlag
    let d := d.put (.store false v)
    let d := if x.initially then d.put (.store true v) else d
    let (d, vs) := openFlags rest d
    (d, (x.name, v) :: vs)

def ofSkeleton (globals : OrderedMap String Global) (s : Skeleton) : Draft :=
  let (d, entry) := ({ globals := globals } : Draft).newBlock (.plain "entry")
  let (d, blocks) := openBlocks (s.blocks.map SkeletonBlock.id) d
  let (d, slots) := openSlots s.slots (d.goTo entry)
  let (d, flags) := openFlags s.flags d
  let l : Layout := { slots := slots, flags := flags, blocks := blocks }
  s.blocks.foldl (block l) (d.put (.branch (l.block s.entry)))

end Draft

namespace Module

/-- Names are given once; the empty name is never free. -/
def isTaken (m : Module) (symbol : String) : Bool := symbol = "" || m.globals.contains symbol

def addFunction (mod : Module) (m : TypeModel) (f : Function) (p : FunctionPlan) (symbol : String) :
    Except LowerError Module := do
  match f.danglingEdge? with
  | some e => .error (.dangling f.name e.src e.dst)
  | none =>
    let symbol := if symbol = "" then f.name else symbol
    if mod.isTaken symbol then .error (.duplicateSymbol symbol)
    else match f.skeleton m p with
      | .error e => .error (.fault e)
      | .ok s =>
        -- the function comes before those that its own code declares
        let d := Draft.ofSkeleton (mod.globals.put symbol (.defined [])) s
        .ok { mod with globals := d.globals.put symbol (.defined d.trail.reverse) }

end Module

mutual

def Function.height : Function → Nat
  | ⟨_, _, _, _, _, _, _, nested, _⟩ => functionsHeight nested + 1

def functionsHeight : List Function → Nat
  | [] => 0
  | f :: fs => max f.height (functionsHeight fs)

end

structure LoweringUnit where
  function : Function
  plan : FunctionPlan
  symbol : String

/-- A nested function is lowered under the symbols of the functions around it, joined by dots. -/
def LoweringUnit.nested (u : LoweringUnit) : List LoweringUnit :=
  (u.function.nested.zip u.plan.nested).map fun (f, p) =>
    { function := f, plan := p, symbol := s!"{u.symbol}.{f.name}" }

def unitsByLevel : Nat → List LoweringUnit → List LoweringUnit
  | 0, _ => []
  | depth + 1, us => us ++ unitsByLevel depth (us.flatMap LoweringUnit.nested)

/-- The module of a program: every function, and every nested function after the outer ones. -/
def lowerProgram (m : TypeModel) (functions : List Function) (plans : List FunctionPlan)
    (name : String) : Except LowerError Module :=
  let units := (functions.zip plans).map fun (f, p) =>
    ({ function := f, plan := p, symbol := f.name } : LoweringUnit)
  (unitsByLevel (functionsHeight functions) units).foldlM
    (fun mod u => mod.addFunction m u.function u.plan u.symbol) { name := name }

end MovePlan
