import MovePlan.Lowering.Code

set_option autoImplicit false

namespace MovePlan

/-- The names that are taken, and the last number tried for each requested name. -/
structure NameScope where
  used : List String := [""]
  counters : OrderedMap String Nat := .empty

namespace NameScope

/-- The first free numbered name after the number `n`. There are at most as many taken names as there
are steps to try. -/
def numbered (s : NameScope) (base : String) : Nat → Nat → Nat
  | 0, n => n + 1
  | fuel + 1, n =>
    if s.used.contains s!"{base}.{n + 1}" then numbered s base fuel (n + 1) else n + 1

def take (s : NameScope) (base : String) : String × NameScope :=
  if s.used.contains base then
    let n := s.numbered base s.used.length ((s.counters.get? base).getD 0)
    let name := s!"{base}.{n}"
    (name, { used := name :: s.used, counters := s.counters.put base n })
  else (base, { s with used := base :: s.used })

end NameScope

/-- A suffix is put to a name of at most fifty characters, or to the beginning of a longer one. -/
def suffixedName (name suffix : String) : String :=
  if name.length > 50 then String.ofList (name.toList.take 25) ++ ".." ++ suffix else name ++ suffix

structure Names where
  scope : NameScope := {}
  blocks : Array String := #[]
  values : Array String := #[]

namespace Names

def block (n : Names) (b : BlockNo) : String := n.blocks.getD b ""

def value (n : Names) (v : ValueNo) : String := n.values.getD v ""

def addEvent (n : Names) : Event → Names
  | .block name =>
    let base := match name with
      | .plain text => text
      | .suffixed parent suffix => suffixedName (n.block parent) suffix
    let (text, scope) := n.scope.take base
    { n with scope := scope, blocks := n.blocks.push text }
  | .instr _ base _ =>
    let (text, scope) := n.scope.take base
    { n with scope := scope, values := n.values.push text }

/-- The result of the function takes the first name. -/
def ofEvents (events : List Event) : Names :=
  events.foldl addEvent { scope := (({} : NameScope).take "").2 }

end Names

def quoteName (name : String) : String :=
  let escaped := name.toList.flatMap fun c =>
    if c = '\\' then ['\\', '5', 'c'] else if c = '"' then ['\\', '2', '2'] else [c]
  String.ofList ('"' :: escaped ++ ['"'])

def IrType.text : IrType → String
  | void => "void"
  | i1 => "i1"
  | i32 => "i32"
  | i8Ptr => "i8*"

def bitText (b : Bool) : String := if b then "1" else "0"

namespace Names

def ref (n : Names) (v : ValueNo) : String := "%" ++ quoteName (n.value v)

def label (n : Names) (b : BlockNo) : String := "label %" ++ quoteName (n.block b)

def operand (n : Names) : Operand → String
  | .number x => s!"i32 {x}"
  | .slot v => s!"i8* {n.ref v}"

def switchCase (n : Names) (number : Nat) (b : BlockNo) : String := s!"i32 {number}, {n.label b}"

def instr (n : Names) (v : ValueNo) : Instr → String
  | .allocSlot => s!"{n.ref v} = alloca i8"
  | .allocFlag => s!"{n.ref v} = alloca i1"
  | .store value flag => s!"store i1 {bitText value}, i1* {n.ref flag}"
  | .load flag => s!"{n.ref v} = load i1, i1* {n.ref flag}"
  | .call callee result args =>
    let operands := ", ".intercalate (args.map n.operand)
    let call := s!"call {result.text} @" ++ quoteName callee ++ s!"({operands})"
    if result = .void then call else s!"{n.ref v} = " ++ call
  | .branch target => s!"br {n.label target}"
  | .branchIf cond ifTrue ifFalse => s!"br i1 {n.ref cond}, {n.label ifTrue}, {n.label ifFalse}"
  | .switch on type default cases =>
    let texts := " ".intercalate (cases.zipIdx.map fun c => n.switchCase (c.2 + 1) c.1)
    s!"switch {type.text} {n.ref on}, {n.label default} [{texts}]"
  | .ret => "ret void"

end Names

def numberedInstrs : List Event → Nat → List (ValueNo × BlockNo × Instr)
  | [], _ => []
  | .block _ :: rest, v => numberedInstrs rest v
  | .instr b _ i :: rest, v => (v, b, i) :: numberedInstrs rest (v + 1)

def bodyLines (events : List Event) : List String :=
  let n := Names.ofEvents events
  let instrs := numberedInstrs events 0
  n.blocks.toList.zipIdx.flatMap fun (name, b) =>
    (name ++ ":") :: (instrs.filter (·.2.1 = b)).map fun (v, _, i) => "  " ++ n.instr v i

def declarationArgs (args : List IrType) : String :=
  ", ".intercalate (args.zipIdx.map fun (t, i) => s!"{t.text} %" ++ quoteName s!".{i + 1}")

def Global.lines (symbol : String) : Global → List String
  | .declared s => [s!"declare {s.result.text} @" ++ quoteName symbol ++ s!"({declarationArgs s.args})", ""]
  | .defined events =>
    ["define void @" ++ quoteName symbol ++ "()", "\x7b"] ++ bodyLines events ++ ["\x7d", ""]

def Module.lines (m : Module) : List String :=
  [s!"; ModuleID = \"{m.name}\"", "target triple = \"unknown-unknown-unknown\"",
    "target datalayout = \"\"", ""] ++
  (m.globals.entries.flatMap fun e => e.2.lines e.1)

def Module.text (m : Module) : String := "\n".intercalate m.lines

end MovePlan
