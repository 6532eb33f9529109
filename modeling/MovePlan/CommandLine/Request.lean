import MovePlan.CommandLine.FileName
import MovePlan.CommandLine.Integer
import MovePlan.Settings

set_option autoImplicit false

namespace MovePlan.CommandLine

inductive Switch
  | help
  | json
  | inlineForwarding
  | trace
deriving DecidableEq, Inhabited

inductive Setting
  | emitIr
  | assignOrder
  | lastUseMode
  | jobs
deriving DecidableEq, Inhabited

inductive OptionName
  | switch (s : Switch)
  | setting (s : Setting)
deriving DecidableEq, Inhabited

def longNames : List (String × OptionName) :=
  [("--help", .switch .help), ("--json", .switch .json), ("--emit-ir", .setting .emitIr),
   ("--assign-order", .setting .assignOrder), ("--last-use-mode", .setting .lastUseMode),
   ("--inline-forwarding", .switch .inlineForwarding), ("--jobs", .setting .jobs),
   ("--trace", .switch .trace)]

inductive Refusal
  | help
  | usage
deriving DecidableEq, Inhabited

def Refusal.exitCode : Refusal → Nat
  | help => 0
  | usage => 2

inductive Word
  | operand (text : String)
  /-- An option, and the value after its equals sign. -/
  | option (name : OptionName) (value : Option String)
  /-- The double dash before the last operands. -/
  | separator
  /-- An option that is not known. -/
  | unknown (text : String)
  /-- A value for an option that takes none. -/
  | misused (text : String)
deriving DecidableEq, Inhabited

def splitValue (text : String) : String × Option String :=
  match text.toList.dropWhile (· ≠ '=') with
  | [] => (text, none)
  | _ :: value => (String.ofList (text.toList.takeWhile (· ≠ '=')), some (String.ofList value))

def Word.ofLong (text : String) (name : OptionName) (value : Option String) : Word :=
  match name, value with
  | .switch _, some _ => .misused text
  | _, _ => .option name value

/-- Letters after `-h` are options of one letter each, and `h` is the only one. They may follow an equals
sign. -/
def Word.ofShort (text : String) (letters : List Char) : Word :=
  let areKnown := match letters with
    | '=' :: rest => !rest.isEmpty && rest.all (· = 'h')
    | _ => letters.all (· = 'h')
  if areKnown then .option (.switch .help) none else .misused text

def isDigits (cs : List Char) : Bool := !cs.isEmpty && cs.all fun c => (digitValue? c).isSome

def dropLastNewline (cs : List Char) : List Char :=
  if cs.getLast? = some '\n' then cs.dropLast else cs

def isUnsignedNumber (cs : List Char) : Bool :=
  let cs := dropLastNewline cs
  let front := cs.takeWhile fun c => (digitValue? c).isSome
  match cs.drop front.length with
  | [] => !front.isEmpty
  | c :: rest => c = '.' && isDigits rest

def Word.ofOther (text : String) : Word :=
  if isUnsignedNumber (text.toList.drop 1) || text.toList.contains ' ' then .operand text
  else .unknown text

def Word.ofText (text : String) : Except Refusal Word :=
  match text.toList with
  | '-' :: '-' :: _ =>
    let (start, value) := splitValue text
    match longNames.find? (·.1 = text) with
    | some (_, name) => .ok (.option name none)
    | none =>
      match longNames.find? (·.1 = start) with
      | some (_, name) => .ok (.ofLong text name value)
      | none =>
        match longNames.filter fun n => start.toList.isPrefixOf n.1.toList with
        | [] => .ok (.ofOther text)
        | [(_, name)] => .ok (.ofLong text name value)
        | _ => .error .usage
  | '-' :: 'h' :: letters => .ok (.ofShort text letters)
  | ['-'] => .ok (.operand text)
  | '-' :: _ => .ok (.ofOther text)
  | _ => .ok (.operand text)

def classify : List String → Except Refusal (List Word)
  | [] => .ok []
  | arg :: rest =>
    if arg = "--" then .ok (.separator :: rest.map .operand)
    else do
      let word ← Word.ofText arg
      let words ← classify rest
      return word :: words

structure Request where
  sources : List FileName := []
  json : Bool := false
  emitIr : Option FileName := none
  settings : Settings := {}
  /-- How many workers may share the functions; the answer does not depend on it. -/
  jobs : Int := 1
  trace : Bool := false
  /-- The settings whose value is a double dash, which counts as no value. They cannot be used. -/
  empty : List Setting := []
deriving DecidableEq, Inhabited

/-- Whether the operands are still to come, are being read, or have ended. -/
inductive OperandPhase
  | before
  | within
  | after
deriving DecidableEq, Inhabited

def OperandPhase.leave : OperandPhase → OperandPhase
  | before => before
  | _ => after

structure Reading where
  request : Request := {}
  phase : OperandPhase := .before
  /-- An argument that nothing has a use for came. -/
  surplus : Bool := false
deriving DecidableEq, Inhabited

namespace Reading

def operand (r : Reading) (text : String) : Reading :=
  match r.phase with
  | .after => { r with surplus := true }
  | _ => { r with
      phase := .within
      request := { r.request with sources := r.request.sources ++ [FileName.ofText text] } }

def separator (r : Reading) : Reading :=
  match r.phase with
  | .after => { r with surplus := true }
  | _ => r

def leaveOperands (r : Reading) : Reading := { r with phase := r.phase.leave }

def switch (r : Reading) (s : Switch) : Except Refusal Reading :=
  let q := r.request
  match s with
  | .help => .error .help
  | .json => .ok { r with request := { q with json := true } }
  | .inlineForwarding =>
    .ok { r with request := { q with settings := { q.settings with inlineForwarding := true } } }
  | .trace => .ok { r with request := { q with trace := true } }

def setting (r : Reading) (s : Setting) (value : String) : Except Refusal Reading :=
  let q := { r.request with empty := r.request.empty.filter (· ≠ s) }
  match s with
  | .emitIr => .ok { r with request := { q with emitIr := some (FileName.ofText value) } }
  | .assignOrder =>
    match AssignOrder.ofLabel? value with
    | some order =>
      .ok { r with request := { q with settings := { q.settings with assignOrder := order } } }
    | none => .error .usage
  | .lastUseMode =>
    match LastUseMode.ofLabel? value with
    | some mode =>
      .ok { r with request := { q with settings := { q.settings with lastUseMode := mode } } }
    | none => .error .usage
  | .jobs =>
    match readInteger value with
    | some n => .ok { r with request := { q with jobs := n } }
    | none => .error .usage

def settingEquals (r : Reading) (s : Setting) (value : String) : Except Refusal Reading :=
  if value = "--" then
    let file := if s = .emitIr then none else r.request.emitIr
    .ok { r with request := { r.request with emitIr := file, empty := s :: r.request.empty } }
  else r.setting s value

end Reading

def readWords : List Word → Reading → Except Refusal Reading
  | [], r => .ok r
  | .operand text :: rest, r => readWords rest (r.operand text)
  | .separator :: rest, r => readWords rest r.separator
  | .unknown _ :: rest, r => readWords rest { r.leaveOperands with surplus := true }
  | .misused _ :: _, _ => .error .usage
  | .option (.switch s) _ :: rest, r => do readWords rest (← r.leaveOperands.switch s)
  | .option (.setting s) (some value) :: rest, r => do
    readWords rest (← r.leaveOperands.settingEquals s value)
  | .option (.setting s) none :: .operand value :: rest, r => do
    readWords rest (← r.leaveOperands.setting s value)
  | .option (.setting _) none :: _, _ => .error .usage

def Request.ofArguments (args : List String) : Except Refusal Request := do
  let r ← readWords (← classify args) {}
  if r.surplus || r.request.sources.isEmpty then .error .usage else .ok r.request

end MovePlan.CommandLine
