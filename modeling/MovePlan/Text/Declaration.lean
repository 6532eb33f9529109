import MovePlan.Flow.Function
import MovePlan.Numeral
import MovePlan.Span

set_option autoImplicit false

namespace MovePlan.Text

structure Name where
  text : String
  span : Span := {}
deriving DecidableEq, Inhabited

inductive TypeExpr
  | named (name : Name)
  | pointer (inner : TypeExpr)
  | reference (isMut : Bool) (inner : TypeExpr)
deriving DecidableEq, Inhabited

inductive TypeAttribute
  | moveCtor (canFail : Bool) (span : Span)
  | moveAssign (canFail : Bool) (span : Span)
  | drop
deriving DecidableEq, Inhabited

structure FieldDecl where
  name : Name
  type : TypeExpr
deriving DecidableEq, Inhabited

structure Parameter where
  name : Name
  mode : Option PassMode
  type : TypeExpr
  forward : Bool
deriving DecidableEq, Inhabited

/-- The flags after a target. Of two passing modes, the move reference counts, then the reference. -/
inductive TargetFlag
  | value
  | moveRef
  | ref
  | mayFail
  | forward
deriving DecidableEq, Inhabited

inductive TargetExpr
  | call (callee : String) (index : Numeral) (flags : List TargetFlag)
  | result (flags : List TargetFlag)
  | assign (dest : String)
deriving DecidableEq, Inhabited

inductive MoveFlag
  | explicit
  | fwd
deriving DecidableEq, Inhabited

structure PlaceExpr where
  binding : String
  path : Path
deriving DecidableEq, Inhabited

inductive SiteExpr
  | decl (name : Name) (type : TypeExpr)
  | read (place : PlaceExpr)
  | write (place : PlaceExpr)
  | addr (place : PlaceExpr)
  | move (flags : List MoveFlag) (place : PlaceExpr) (target : TargetExpr)
  | temp (type : TypeExpr) (target : TargetExpr)
deriving DecidableEq, Inhabited

inductive EdgeWord
  | goto
  | onTrue
  | onFalse
  | back
  | skip
deriving DecidableEq, Inhabited

inductive Statement
  | site (site : SiteExpr) (span : Span)
  | edge (word : EdgeWord) (dst : Numeral)
  | jump (label : String)
  | ret
deriving DecidableEq, Inhabited

structure BlockDecl where
  id : Numeral
  label : Option Name
  body : List Statement
  span : Span
deriving DecidableEq, Inhabited

structure ScopeDecl where
  name : Name
  blocks : List Numeral
deriving DecidableEq, Inhabited

mutual

inductive FunctionDecl
  | mk (name : Name) (params : List Parameter) (captures : List String) (body : Members) (span : Span)

inductive Members
  | nil
  | block (b : BlockDecl) (rest : Members)
  | scope (s : ScopeDecl) (rest : Members)
  | nested (f : FunctionDecl) (rest : Members)

end

instance : Inhabited Members := ⟨.nil⟩
instance : Inhabited FunctionDecl := ⟨.mk default [] [] .nil {}⟩

namespace Members

def blocks : Members → List BlockDecl
  | nil => []
  | block b rest => b :: rest.blocks
  | scope _ rest | nested _ rest => rest.blocks

def scopes : Members → List ScopeDecl
  | nil => []
  | scope s rest => s :: rest.scopes
  | block _ rest | nested _ rest => rest.scopes

end Members

namespace FunctionDecl

def name : FunctionDecl → Name
  | mk n .. => n

def span : FunctionDecl → Span
  | mk _ _ _ _ s => s

end FunctionDecl

inductive Declaration
  | type (name : Name) (isScalar : Bool) (attributes : List TypeAttribute) (span : Span)
  | struct (name : Name) (attributes : List TypeAttribute) (fields : List FieldDecl) (span : Span)
  | function (f : FunctionDecl)
deriving Inhabited

end MovePlan.Text
