import MovePlan.Proofs.Text.Demands
import MovePlan.Proofs.Text.Grammar
import MovePlan.Proofs.Text.Sound

set_option autoImplicit false

/-!
# What declarations denote

The types and the functions that declarations stand for, said without assembling them. Types are numbered
in the order in which they are named: the basic ones, those that are declared, and then every pointer and
reference at its first mention, fields before functions. A jump to a label that no block has leads past
all blocks, each such jump to a number of its own.
-/
namespace MovePlan.Text

/-- The name of the type that pointers and references lead to in the end. -/
def TypeExpr.base : TypeExpr → String
  | named name => name.text
  | pointer inner => inner.base
  | reference _ inner => inner.base

def TypeExpr.derived : TypeExpr → List TypeExpr
  | named _ => []
  | pointer inner => inner.derived ++ [(pointer inner).plain]
  | reference isMut inner => inner.derived ++ [(reference isMut inner).plain]

def TypeExpr.shownName : TypeExpr → String
  | named name => name.text
  | pointer inner => TypeTable.pointerName inner.shownName
  | reference isMut inner => TypeTable.referenceName isMut inner.shownName

def SiteExpr.type? : SiteExpr → Option TypeExpr
  | decl _ type => some type
  | temp type _ => some type
  | _ => none

def Statement.type? : Statement → Option TypeExpr
  | site s _ => s.type?
  | _ => none

def ownTypes (params : List Parameter) (body : Members) : List TypeExpr :=
  params.map Parameter.type ++ body.blocks.flatMap fun b => b.body.filterMap Statement.type?

mutual

/-- The types that a function mentions, in the order in which they are read. -/
def FunctionDecl.types : FunctionDecl → List TypeExpr
  | .mk _ params _ body _ => ownTypes params body ++ body.nestedTypes

def Members.nestedTypes : Members → List TypeExpr
  | .nil => []
  | .block _ rest => rest.nestedTypes
  | .scope _ rest => rest.nestedTypes
  | .nested f rest => f.types ++ rest.nestedTypes

end

def Declaration.fields : Declaration → List FieldDecl
  | struct _ _ fields _ => fields
  | _ => []

def Declaration.function? : Declaration → Option FunctionDecl
  | function f => some f
  | _ => none

def outerFunctions (ds : List Declaration) : List FunctionDecl := ds.filterMap Declaration.function?

/-- The types that a text mentions. -/
def mentions (ds : List Declaration) : List TypeExpr :=
  ds.flatMap (fun d => d.fields.map FieldDecl.type) ++ (outerFunctions ds).flatMap FunctionDecl.types

def namedType (name : String) : TypeExpr := .named { text := name }

def knownNames (ds : List Declaration) : List String := "Int" :: "Bool" :: declaredNames ds

/-- Adds a type to the list of all types unless it is there. -/
def enter (u : List TypeExpr) (t : TypeExpr) : List TypeExpr := if t ∈ u then u else u ++ [t]

def grow (u : List TypeExpr) (ts : List TypeExpr) : List TypeExpr := (ts.flatMap TypeExpr.derived).foldl enter u

/-- All types of a text in the order of their ids. -/
def allTypes (ds : List Declaration) : List TypeExpr := grow ((knownNames ds).map namedType) (mentions ds)

def idIn (u : List TypeExpr) (t : TypeExpr) : TypeId := (u.idxOf t.plain : ℤ) + 1

variable (file : Option String) (u : List TypeExpr)

def TypeAttribute.moveCtor? : TypeAttribute → Option UserMove
  | moveCtor fails span => some { canFail := fails, span := span.withFile file }
  | _ => none

def TypeAttribute.moveAssign? : TypeAttribute → Option UserMove
  | moveAssign fails span => some { canFail := fails, span := span.withFile file }
  | _ => none

/-- Of two attributes for one operation the last counts. -/
def opsOf (attributes : List TypeAttribute) (span : Span) : UserOps where
  moveCtor := (attributes.filterMap (TypeAttribute.moveCtor? file)).getLast?
  moveAssign := (attributes.filterMap (TypeAttribute.moveAssign? file)).getLast?
  destructor := decide (.drop ∈ attributes)
  span := span.withFile file

def FieldDecl.field (f : FieldDecl) : Field := { name := f.name.text, type := idIn u f.type }

/-- The definition of a declared type; a struct is given the fields `fields`. -/
def Declaration.typeDef? (fields : List FieldDecl → List Field) : Declaration → Option TypeDef
  | type name true _ _ => some { kind := .scalar, name := name.text }
  | type name false attributes span =>
    some { kind := .foreign, name := name.text, ops := opsOf file attributes span }
  | struct name attributes fs span =>
    some { kind := .struct, name := name.text, fields := fields fs, ops := opsOf file attributes span }
  | function _ => none

def TypeExpr.derivedDef? : TypeExpr → Option TypeDef
  | named _ => none
  | pointer inner =>
    some { kind := .pointer, name := TypeTable.pointerName inner.shownName, target := some (idIn u inner) }
  | reference isMut inner =>
    some { kind := .reference, name := TypeTable.referenceName isMut inner.shownName
           target := some (idIn u inner), mutable := some isMut }

def typesOf (ds : List Declaration) : List TypeDef :=
  [{ kind := .scalar, name := "Int" }, { kind := .scalar, name := "Bool" }] ++
    ds.filterMap (Declaration.typeDef? file (List.map (FieldDecl.field u))) ++
    u.filterMap (TypeExpr.derivedDef? u)

def TargetExpr.target : TargetExpr → Target
  | call callee index flags =>
    .argument callee index.value (modeOf flags) (decide (.mayFail ∈ flags)) (decide (.forward ∈ flags))
  | result flags => .returned (modeOf flags)
  | assign dest => .assignment dest

def SiteExpr.target? : SiteExpr → Option TargetExpr
  | move _ _ target => some target
  | temp _ target => some target
  | _ => none

def SiteExpr.moveFlags : SiteExpr → List MoveFlag
  | move flags _ _ => flags
  | _ => []

def SiteExpr.tempType? : SiteExpr → Option TypeExpr
  | temp type _ => some type
  | _ => none

def SiteExpr.site (id : ℕ) (block : BlockId) (index : ℕ) (span : Span) (s : SiteExpr) : Site where
  id := id
  block := block
  index := index
  kind := s.kind
  binding := s.place?.map PlaceExpr.binding
  path := (s.place?.map PlaceExpr.path).getD []
  target := s.target?.map TargetExpr.target
  explicit := decide (.explicit ∈ s.moveFlags)
  viaForward := decide (.fwd ∈ s.moveFlags)
  tempType := s.tempType?.map (idIn u)
  span := span.withFile file

/-- The sites of statements, numbered from `id` on, at the positions from `index` on. -/
def sitesFrom (block : BlockId) : ℕ → ℕ → List Statement → List Site
  | _, _, [] => []
  | id, index, .site s span :: rest =>
    s.site file u id block index span :: sitesFrom block (id + 1) (index + 1) rest
  | id, index, _ :: rest => sitesFrom block id index rest

/-- The edges of statements, where jumps to missing labels are numbered from `next` on. -/
def edgesFrom (target : String → Option BlockId) (src : BlockId) : ℤ → List Statement → List Edge
  | _, [] => []
  | next, .edge word dst :: rest =>
    { src := src, dst := (dst.value : ℤ), kind := word.kind } :: edgesFrom target src next rest
  | next, .jump label :: rest =>
    { src := src, dst := (target label).getD next, kind := .jump, label := some label } ::
      edgesFrom target src (if (target label).isSome then next else next + 1) rest
  | next, _ :: rest => edgesFrom target src next rest

def missing (target : String → Option BlockId) (body : List Statement) : ℕ :=
  (body.filterMap Statement.jump?).countP fun label => (target label).isNone

/-- The block that a label belongs to. -/
def labelTarget (bs : List BlockDecl) (label : String) : Option BlockId :=
  (bs.find? fun b => b.label.map Name.text = some label).map fun b => (b.id.value : ℤ)

def BlockDecl.block (target : String → Option BlockId) (id : ℕ) (next : ℤ) (b : BlockDecl) : Block where
  label := b.label.map Name.text
  sites := sitesFrom file u b.id.value id 0 b.body
  edges := edgesFrom target b.id.value next b.body
  span := b.span.withFile file

/-- The blocks of a function, where sites are numbered from `id` on. -/
def blocksFrom (target : String → Option BlockId) : ℕ → ℤ → List BlockDecl → List (BlockId × Block)
  | _, _, [] => []
  | id, next, b :: rest =>
    ((b.id.value : ℤ), b.block file u target id next) ::
      blocksFrom target (id + (b.body.filterMap Statement.site?).length) (next + missing target b.body) rest

/-- A captured name has the type that it has in the enclosing function. -/
def capturedBinding (outer : OrderedMap String Binding) (name : String) : Binding :=
  { name := name, type := ((outer.get? name).map Binding.type).getD 0, captured := true }

def Parameter.binding (p : Parameter) : Binding :=
  { name := p.name.text, type := idIn u p.type, isParam := true, mode := p.mode.getD .value
    span := p.name.span.withFile file }

/-- A name that is declared, its type and the span of its declaration. -/
def Statement.declared? : Statement → Option (String × TypeExpr × Span)
  | site (.decl name type) span => some (name.text, type, span)
  | _ => none

def declarations (bs : List BlockDecl) : List (String × TypeExpr × Span) :=
  bs.flatMap fun b => b.body.filterMap Statement.declared?

/-- The blocks that the last scope line for a name lists. -/
def regionOf (scopes : List ScopeDecl) (name : String) : Option (List BlockId) :=
  (scopes.filter (·.name.text = name)).getLast?.map fun s => s.blocks.map fun n => (n.value : ℤ)

def localBinding (scopes : List ScopeDecl) (d : String × TypeExpr × Span) : Binding :=
  { name := d.1, type := idIn u d.2.1, region := regionOf scopes d.1, span := d.2.2.withFile file }

def forwardsFrom (index : ℕ) (params : List Parameter) : List ℤ :=
  ((params.zipIdx index).filter fun p => p.1.forward).map fun p => (p.2 : ℤ)

/-- One more than the largest number of a block. -/
def firstMissing (bs : List BlockDecl) : ℤ := (bs.map fun b => (b.id.value : ℤ)).foldl max (-1) + 1

/-- A function without those inside it, in one with the bindings `outer`. -/
def bodyOf (outer : OrderedMap String Binding) (name : Name) (params : List Parameter)
    (captures : List String) (body : Members) (span : Span) : Function where
  name := name.text
  entry := (body.blocks.head?.map fun b => (b.id.value : ℤ)).getD 0
  blocks := .ofList (blocksFrom file u (labelTarget body.blocks) 0 (firstMissing body.blocks) body.blocks)
  bindings := .ofList (captures.map (fun c => (c, capturedBinding outer c)) ++
    params.map (fun p => (p.name.text, p.binding file u)) ++
    (declarations body.blocks).map fun d => (d.1, localBinding file u body.scopes d))
  params := params.map (·.name.text)
  forwards := forwardsFrom 0 params
  captures := captures
  span := span.withFile file

mutual

/-- The function of a declaration in a function with the bindings `outer`. -/
def FunctionDecl.function (outer : OrderedMap String Binding) : FunctionDecl → Function
  | .mk name params captures body span =>
    { bodyOf file u outer name params captures body span with
      nested := body.nestedFunctions (bodyOf file u outer name params captures body span).bindings }

def Members.nestedFunctions (outer : OrderedMap String Binding) : Members → List Function
  | .nil => []
  | .block _ rest => rest.nestedFunctions outer
  | .scope _ rest => rest.nestedFunctions outer
  | .nested f rest => f.function outer :: rest.nestedFunctions outer

end

/-- The program that a text stands for. -/
def denote (ds : List Declaration) : Program where
  table := { defs := typesOf file (allTypes ds) ds, intType := some 1, boolType := some 2 }
  functions := (outerFunctions ds).map (FunctionDecl.function file (allTypes ds) .empty)

def TargetExpr.numerals : TargetExpr → List Numeral
  | call _ index _ => [index]
  | _ => []

def Statement.numerals : Statement → List Numeral
  | site s _ => (s.target?.map TargetExpr.numerals).getD []
  | edge _ dst => [dst]
  | _ => []

def Members.numerals (body : Members) : List Numeral :=
  body.blocks.map BlockDecl.id ++ body.blocks.flatMap (fun b => b.body.flatMap Statement.numerals) ++
    body.scopes.flatMap ScopeDecl.blocks

mutual

/-- The numerals of a function and of those inside it. -/
def FunctionDecl.numerals : FunctionDecl → List Numeral
  | .mk _ _ _ body _ => body.numerals ++ body.nestedNumerals

def Members.nestedNumerals : Members → List Numeral
  | .nil => []
  | .block _ rest => rest.nestedNumerals
  | .scope _ rest => rest.nestedNumerals
  | .nested f rest => f.numerals ++ rest.nestedNumerals

end

/-- The numerals of a text. -/
def numerals (ds : List Declaration) : List Numeral := (outerFunctions ds).flatMap FunctionDecl.numerals

def ownNames (params : List Parameter) (body : Members) : List String :=
  params.map (·.name.text) ++ (declarations body.blocks).map Prod.fst

/-- What the parser requires of a function inside one with the names `outer`. -/
@[mk_iff]
structure Proper (outer : List String) (params : List Parameter) (captures : List String)
    (body : Members) : Prop where
  known : ∀ c ∈ captures, c ∈ outer
  distinct : (ownNames params body).Nodup
  fresh : ∀ name ∈ ownNames params body, name ∉ captures
  forward : ∀ p ∈ params, p.forward = true → p.mode = some .moveRef
  blocks : (body.blocks.map fun b => b.id.value).Nodup
  labels : (body.blocks.filterMap fun b => b.label.map Name.text).Nodup
  scopes : ∀ s ∈ body.scopes, s.name.text ∈ (declarations body.blocks).map Prod.fst

instance (outer : List String) (params : List Parameter) (captures : List String) (body : Members) :
    Decidable (Proper outer params captures body) :=
  decidable_of_iff' _ (proper_iff outer params captures body)

mutual

def FunctionDecl.WellScoped (outer : List String) : FunctionDecl → Prop
  | .mk _ params captures body _ =>
    Proper outer params captures body ∧ body.WellScoped (captures ++ ownNames params body)

def Members.WellScoped (outer : List String) : Members → Prop
  | .nil => True
  | .block _ rest => rest.WellScoped outer
  | .scope _ rest => rest.WellScoped outer
  | .nested f rest => f.WellScoped outer ∧ rest.WellScoped outer

end

mutual

def FunctionDecl.decideWellScoped (outer : List String) : (f : FunctionDecl) → Decidable (f.WellScoped outer)
  | .mk _ params captures body _ =>
    have := body.decideWellScoped (captures ++ ownNames params body)
    inferInstanceAs (Decidable (Proper outer params captures body ∧ _))

def Members.decideWellScoped (outer : List String) : (body : Members) → Decidable (body.WellScoped outer)
  | .nil => inferInstanceAs (Decidable True)
  | .block _ rest => rest.decideWellScoped outer
  | .scope _ rest => rest.decideWellScoped outer
  | .nested f rest =>
    have := f.decideWellScoped outer
    have := rest.decideWellScoped outer
    inferInstanceAs (Decidable (f.WellScoped outer ∧ rest.WellScoped outer))

end

instance (outer : List String) (f : FunctionDecl) : Decidable (f.WellScoped outer) := f.decideWellScoped outer

/-- What the parser requires of a text. -/
@[mk_iff]
structure WellScoped (ds : List Declaration) : Prop where
  types : (knownNames ds).Nodup
  fields : ∀ d ∈ ds, (d.fields.map (·.name.text)).Nodup
  resolved : ∀ t ∈ mentions ds, t.base ∈ knownNames ds
  names : ((outerFunctions ds).map (·.name.text)).Nodup
  functions : ∀ f ∈ outerFunctions ds, f.WellScoped []

instance (ds : List Declaration) : Decidable (WellScoped ds) := decidable_of_iff' _ (wellScoped_iff ds)

end MovePlan.Text
