import MovePlan.Proofs.Text.Types
import MovePlan.Proofs.Types.Names

set_option autoImplicit false

/-!
# What a text asks for

While a text is assembled, types are looked up by their names, the type `Unknown` stands in for what has
no type, and numerals are read. Nothing else can be refused. So a text is assembled, whatever is wrong
with it, unless it asks for the type `Unknown` where its author has taken this name, or has a numeral that
is too long.
-/
namespace MovePlan.Text

inductive Demand
  | type (name : String)
  /-- The type of a captured name that is not bound. -/
  | unknown
  | number (n : Numeral)
deriving DecidableEq

/-- The names that types have, and whether an author has taken the name `Unknown`. -/
structure Names where
  known : List String
  clash : Bool
deriving DecidableEq

namespace Names

def unknownFault : Fault := .type (.duplicateName "Unknown")

def fault? (ns : Names) : Demand → Option Fault
  | .type name => if name ∉ ns.known ∧ ns.clash = true then some unknownFault else none
  | .unknown => if ns.clash then some unknownFault else none
  | .number n => if n.isTooLong then some (.longNumeral n.length) else none

/-- The first demand that is refused decides. -/
def firstFault (ns : Names) (demands : List Demand) : Option Fault := demands.findSome? ns.fault?

@[simp] theorem firstFault_nil (ns : Names) : ns.firstFault [] = none := rfl

theorem firstFault_append (ns : Names) (ds ds' : List Demand) :
    ns.firstFault (ds ++ ds') = (ns.firstFault ds).or (ns.firstFault ds') := List.findSome?_append

theorem firstFault_singleton (ns : Names) (d : Demand) : ns.firstFault [d] = ns.fault? d := by
  rw [firstFault, List.findSome?_singleton]

end Names

def TypeExpr.demands : TypeExpr → List Demand
  | .named name => [.type name.text]
  | .pointer inner => inner.demands
  | .reference _ inner => inner.demands

def fieldDemands (seen : List String) : List FieldDecl → List Demand
  | [] => []
  | f :: fs =>
    if f.name.text ∈ seen then fieldDemands seen fs
    else f.type.demands ++ fieldDemands (f.name.text :: seen) fs

def declaredNames (ds : List Declaration) : List String :=
  ds.filterMap fun
    | .type name .. => some name.text
    | .struct name .. => some name.text
    | .function _ => none

/-- The fields of the structs whose names are not taken when they are declared. -/
def newStructs (taken : List String) : List Declaration → List (List FieldDecl)
  | [] => []
  | .type name _ _ _ :: rest => newStructs (name.text :: taken) rest
  | .struct name _ fields _ :: rest =>
    if name.text ∈ taken then newStructs taken rest else fields :: newStructs (name.text :: taken) rest
  | .function _ :: rest => newStructs taken rest

def TargetExpr.demands : TargetExpr → List Demand
  | .call _ index _ => [.number index]
  | .result _ => []
  | .assign _ => []

def SiteExpr.demands : SiteExpr → List Demand
  | .decl _ type => type.demands
  | .temp type target => type.demands ++ target.demands
  | .move _ _ target => target.demands
  | .read _ => []
  | .write _ => []
  | .addr _ => []

def Statement.demands : Statement → List Demand
  | .site s _ => s.demands
  | .edge _ dst => [.number dst]
  | .jump _ => []
  | .ret => []

/-- The statements of the blocks that do not repeat a number. -/
def keptBodies (seen : List BlockId) : List BlockDecl → List (BlockId × List Statement)
  | [] => []
  | b :: rest =>
    if (b.id.value : Int) ∈ seen then keptBodies seen rest
    else (b.id.value, b.body) :: keptBodies (b.id.value :: seen) rest

def Statement.local? : Statement → Option String
  | .site (.decl name _) _ => some name.text
  | _ => none

def Members.locals (body : Members) : List String :=
  (keptBodies [] body.blocks).flatMap fun b => b.2.filterMap Statement.local?

def scopeDemands (bound locals : List String) (s : ScopeDecl) : List Demand :=
  if s.name.text ∉ bound ∧ s.name.text ∈ locals then s.blocks.map .number else []

/-- The captured names of a function, and its parameters. -/
def boundNames (params : List Parameter) (captures : List String) : List String :=
  captures ++ params.map (·.name.text)

def bodyDemands (outer : List String) (params : List Parameter) (captures : List String)
    (body : Members) : List Demand :=
  (captures.filter (· ∉ outer)).map (fun _ => .unknown) ++
    params.flatMap (·.type.demands) ++
    body.blocks.map (.number ·.id) ++
    (keptBodies [] body.blocks).flatMap (fun b => b.2.flatMap Statement.demands) ++
    body.scopes.flatMap (scopeDemands (boundNames params captures) body.locals)

mutual

/-- The demands of a function, where `outer` are the names that it may capture. -/
def FunctionDecl.demands (outer : List String) : FunctionDecl → List Demand
  | .mk _ params captures body _ =>
    bodyDemands outer params captures body ++
      body.nestedDemands (boundNames params captures ++ body.locals)

def Members.nestedDemands (outer : List String) : Members → List Demand
  | .nil => []
  | .block _ rest => rest.nestedDemands outer
  | .scope _ rest => rest.nestedDemands outer
  | .nested f rest => f.demands outer ++ rest.nestedDemands outer

end

def Declaration.demands : Declaration → List Demand
  | .function f => f.demands []
  | _ => []

def takenNames (t : TypeTable) : List String := "Int" :: "Bool" :: t.names

def namesOf (t : TypeTable) (ds : List Declaration) : Names where
  known := takenNames t ++ declaredNames ds
  clash := t.unknownType.isNone && decide ("Unknown" ∈ takenNames t ++ declaredNames ds)

/-- All that the declarations of a text ask for, in the order in which it is looked up. -/
def demandsOf (t : TypeTable) (ds : List Declaration) : List Demand :=
  (newStructs (takenNames t) ds).flatMap (fieldDemands []) ++ ds.flatMap Declaration.demands

end MovePlan.Text
