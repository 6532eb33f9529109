import MovePlan.Types.Table
import MovePlan.Pieces

set_option autoImplicit false

namespace MovePlan

abbrev BlockId := Int
abbrev SiteId := Int

inductive SiteKind
  /-- The start of a lifetime; it is not an access. -/
  | decl
  | read
  | write
  | addrOf
  /-- The value is consumed by a call, a return or an assignment. -/
  | moveOut
deriving DecidableEq, Inhabited

namespace SiteKind

def label : SiteKind → String
  | decl => "decl"
  | read => "read"
  | write => "write"
  | addrOf => "addr_of"
  | moveOut => "move_out"

def ofLabel? (l : String) : Option SiteKind :=
  [decl, read, write, addrOf, moveOut].find? (·.label = l)

def isAccess : SiteKind → Bool
  | decl => false
  | _ => true

end SiteKind

inductive PassMode
  | value
  /-- A reference to an owned value; the receiver takes the ownership. -/
  | moveRef
  | plainRef
deriving DecidableEq, Inhabited

namespace PassMode

def label : PassMode → String
  | value => "value"
  | moveRef => "move_ref"
  | plainRef => "plain_ref"

def ofLabel? (l : String) : Option PassMode :=
  [value, moveRef, plainRef].find? (·.label = l)

end PassMode

inductive TargetKind
  | callArg
  | result
  | assign
deriving DecidableEq, Inhabited

namespace TargetKind

def label : TargetKind → String
  | callArg => "call_arg"
  | result => "return"
  | assign => "assign"

def ofLabel? (l : String) : Option TargetKind :=
  [callArg, result, assign].find? (·.label = l)

end TargetKind

/-- Where a consumed value goes. A forwarding parameter is handed back by the callee, so passing into
it transfers nothing; a call that may fail loses its arguments before it runs. -/
structure Target where
  kind : TargetKind
  callee : Option String := none
  paramIndex : Option Int := none
  mode : PassMode := .value
  mayFail : Bool := false
  forwarding : Bool := false
  dest : Option String := none
deriving DecidableEq, Inhabited

namespace Target

def argument (callee : String) (index : Int) (mode : PassMode) (mayFail forwarding : Bool) : Target :=
  { kind := .callArg, callee := some callee, paramIndex := some index, mode := mode,
    mayFail := mayFail, forwarding := forwarding }

def returned (mode : PassMode) : Target := { kind := .result, mode := mode }

def assignment (dest : String) : Target := { kind := .assign, dest := some dest }

def isForwardingCall (t : Target) : Bool := t.kind = .callArg && t.forwarding

end Target

abbrev Path := List String

/-- A use site claims the block and the position at which it stands. -/
structure Site where
  id : SiteId
  block : BlockId
  index : Int
  kind : SiteKind
  /-- Nothing for a temporary. -/
  binding : Option String
  path : Path := []
  throughPointer : Bool := false
  target : Option Target := none
  explicit : Bool := false
  /-- The site consumes a reference that a forwarding call returned. -/
  viaForward : Bool := false
  tempType : Option TypeId := none
  span : Span := {}
deriving DecidableEq, Inhabited

def dotted (name : String) (path : Path) : String := ".".intercalate (name :: path)

namespace Site

def isAccess (s : Site) : Bool := s.kind.isAccess

def isTemporary (s : Site) : Bool := s.binding.isNone

/-- What the site does and where; none if its position has too many digits. -/
def describe? (s : Site) : Option String := do
  let place := dotted (s.binding.getD "<temp>") s.path
  let block ← Numeral.text? s.block
  let index ← Numeral.text? s.index
  return s!"{s.kind.label} {place} @bb{block}[{index}]"

end Site

structure Place where
  binding : String
  path : Path := []
deriving DecidableEq, Inhabited

namespace Place

def render (p : Place) : String := dotted p.binding p.path

/-- An operation on a path reaches every place that the path is a beginning of. -/
def coveredBy (p : Place) (path : Path) : Bool := path.isPrefixOf p.path

def overlaps (p : Place) (path : Path) : Bool :=
  p.coveredBy path || p.path.isPrefixOf path

end Place

/-- Reads `name.field.field`; the name must not be empty. -/
def Place.ofText? (text : String) : Option Place :=
  match pieces '.' text with
  | [] => none
  | name :: path => if name = "" then none else some { binding := name, path := path }

end MovePlan
