import MovePlan.Flow.Function
import MovePlan.Numeral

set_option autoImplicit false

namespace MovePlan

inductive Fault
  | type (error : TypeError)
  | noSite (site : SiteId) (function : String)
  | noBlock (block : BlockId)
  | noBinding (name : Option String)
  | noDecision (site : SiteId)
  | noPlace (place : Place)
  | noNested (function inner : String)
  /-- A site claims a position that its block does not have. -/
  | noPosition
  /-- A forwarding index is below the first parameter, counted from the last. -/
  | noParam
  | untypedTemporary (site : Site) (function : String)
  | unresolvedPlace (site : Site) (function : String)
  | noTarget (site : Site) (function : String)
  | badReference (text : String)
  /-- A numeral has more digits than it may have. -/
  | longNumeral (length : Nat)
  /-- A number that is to be printed has more digits than it may have. -/
  | longNumber
deriving DecidableEq, Inhabited

namespace Fault

def message? : Fault → Option String
  | type e => e.message?
  | noSite s f => (Numeral.text? s).map fun s => s!"no use site {s} in '{f}'"
  | noBlock b => Numeral.text? b
  | noBinding n => n.getD "None"
  | noDecision s => Numeral.text? s
  | noPlace p => p.render
  | noNested f inner => s!"'{f}' has no nested function '{inner}'"
  | noPosition => "list index out of range"
  | noParam => "tuple index out of range"
  | untypedTemporary s f => s.describe?.map fun s =>
    s!"untyped temporary at {s} in '{f}'; run validate_cfg first"
  | unresolvedPlace s f => s.describe?.map fun s =>
    s!"unresolvable place at {s} in '{f}'; run validate_cfg first"
  | noTarget s f => s.describe?.map fun s =>
    s!"move-out without a target at {s} in '{f}'; run validate_cfg first"
  | badReference t => s!"invalid binding reference '{t}'"
  | longNumeral n => s!"a number has {n} digits, and {Numeral.maxLength} are the most"
  | longNumber => none

end Fault

def liftType {α : Type} : Except TypeError α → Except Fault α
  | .ok a => .ok a
  | .error e => .error (.type e)

def optionOr {α : Type} (fault : Fault) : Option α → Except Fault α
  | some a => .ok a
  | none => .error fault

namespace Function

def getBlock (f : Function) (id : BlockId) : Except Fault Block :=
  optionOr (.noBlock id) (f.block? id)

def getBinding (f : Function) (name : String) : Except Fault Binding :=
  optionOr (.noBinding (some name)) (f.binding? name)

def getSite (f : Function) (id : SiteId) : Except Fault Site :=
  optionOr (.noSite id f.name) (f.site? id)

end Function

def Place.ofText (text : String) : Except Fault Place :=
  optionOr (.badReference text) (Place.ofText? text)

end MovePlan
