import MovePlan.Diagnostic
import MovePlan.Flow.Fault
import MovePlan.Text.Reader

set_option autoImplicit false

/-!
# From declarations to functions

Several texts build one program over one table of types. All nominal types of a text are registered
before fields refer to them. A fault is reported and passed over: a repeated name is ignored, an
unknown type becomes the type `Unknown`.
-/
namespace MovePlan

structure Program where
  table : TypeTable := {}
  functions : List Function := []
  diagnostics : List Diagnostic := []
deriving Inhabited

namespace Text

/-- The table and the diagnostics of a program while one file is added. -/
structure Assembly where
  file : Option String
  table : TypeTable
  diagnostics : List Diagnostic
deriving DecidableEq, Inhabited

/-- A step of assembling. It fails only at a numeral that is too long, and where the type `Unknown`
cannot be registered, because the text declares a type of this name. -/
abbrev Assemble := StateT Assembly (Except Fault)

def spanInFile (span : Span) : Assemble Span := fun b => .ok (span.withFile b.file, b)

def reportAs (phase code message : String) (span : Span) : Assemble Unit := fun b =>
  .ok ((), { b with diagnostics := b.diagnostics ++
    [{ message := message, code := some code, phase := some phase, span := span.withFile b.file }] })

def report (code message : String) (span : Span) : Assemble Unit :=
  reportAs "parser" code message span

def onTable {α : Type} (op : TypeTable → Except TypeError (TypeTable × α)) : Assemble α := fun b => do
  let (t, a) ← liftType (op b.table)
  return (a, { b with table := t })

def valueOf (n : Numeral) : Assemble Int := fun b => do
  let v ← optionOr (.longNumeral n.length) n.value?
  return ((v : Int), b)

def lookupType (name : String) : Assemble (Option TypeId) := fun b => .ok (b.table.lookup name, b)

/-- The operations that attributes declare; of two for one operation the last counts. -/
def userOps (attributes : List TypeAttribute) (span : Span) : Assemble UserOps := do
  let file := (← get).file
  return attributes.foldl (fun (ops : UserOps) a =>
    match a with
    | .moveCtor fails s => { ops with moveCtor := some { canFail := fails, span := s.withFile file } }
    | .moveAssign fails s =>
      { ops with moveAssign := some { canFail := fails, span := s.withFile file } }
    | .drop => { ops with destructor := true }) { span := span.withFile file }

/-- Registers the name of a type unless it is taken. -/
def declareNew (name : Name) (register : TypeTable → Except TypeError (TypeTable × TypeId)) :
    Assemble (Option TypeId) := do
  if (← lookupType name.text).isSome then
    report "E_DUPLICATE_TYPE" s!"type '{name.text}' is declared more than once" name.span
    return none
  else return some (← onTable register)

structure PendingStruct where
  id : TypeId
  name : String
  fields : List FieldDecl
deriving DecidableEq, Inhabited

def declareTypes : List Declaration → Assemble (List PendingStruct)
  | [] => return []
  | .type name isScalar attributes span :: rest => do
    let ops ← userOps attributes span
    let _ ← declareNew name fun t =>
      if isScalar then t.newScalar name.text else t.newForeign name.text ops
    declareTypes rest
  | .struct name attributes fields span :: rest => do
    let ops ← userOps attributes span
    let id ← declareNew name fun t => t.declareStruct name.text ops
    let structs ← declareTypes rest
    return match id with
      | some id => { id := id, name := name.text, fields := fields } :: structs
      | none => structs
  | .function _ :: rest => declareTypes rest

def resolveType : TypeExpr → Assemble TypeId
  | .named name => do
    match ← lookupType name.text with
    | some id => return id
    | none =>
      reportAs "typemodel" "E_UNKNOWN_TYPE" s!"unknown type '{name.text}'" name.span
      onTable TypeTable.ensureUnknown
  | .pointer inner => do
    let id ← resolveType inner
    onTable (TypeTable.newPointer · id)
  | .reference isMut inner => do
    let id ← resolveType inner
    onTable (TypeTable.newReference · id isMut)

def resolveFields (struct : String) (seen : List String) : List FieldDecl → Assemble (List Field)
  | [] => return []
  | f :: fs => do
    if f.name.text ∈ seen then
      report "E_DUPLICATE_FIELD" s!"duplicate field '{f.name.text}' in struct '{struct}'" f.name.span
      resolveFields struct seen fs
    else
      let id ← resolveType f.type
      let rest ← resolveFields struct (f.name.text :: seen) fs
      return { name := f.name.text, type := id } :: rest

def defineStructs : List PendingStruct → Assemble Unit
  | [] => return ()
  | s :: rest => do
    let fields ← resolveFields s.name [] s.fields
    onTable fun t => do return (← t.defineStruct s.id fields, ())
    defineStructs rest

def TargetExpr.modeOf (flags : List TargetFlag) : PassMode :=
  if .moveRef ∈ flags then .moveRef else if .ref ∈ flags then .plainRef else .value

def buildTarget : TargetExpr → Assemble Target
  | .call callee index flags => do
    return .argument callee (← valueOf index) (TargetExpr.modeOf flags) (decide (.mayFail ∈ flags))
      (decide (.forward ∈ flags))
  | .result flags => return .returned (TargetExpr.modeOf flags)
  | .assign dest => return .assignment dest

def EdgeWord.kind : EdgeWord → EdgeKind
  | goto => .normal
  | onTrue => .onTrue
  | onFalse => .onFalse
  | back => .back
  | skip => .skip

/-- A function in the making, with the next free site id and the next block id for a jump to a label
that the function does not have. -/
structure Body where
  function : Function
  labels : List (String × BlockId)
  nextSite : Nat
  nextDangling : Int
deriving Inhabited

/-- The site of an expression, if it is one: a repeated declaration is none. -/
def buildSite (f : Function) (id : Nat) (block : BlockId) (index : Nat) (span : Span) :
    SiteExpr → Assemble (Function × Option Site)
  | .decl name type => do
    let t ← resolveType type
    if f.bindings.contains name.text then
      report "E_DUPLICATE_BINDING" s!"duplicate binding '{name.text}' in '{f.name}'" name.span
      return (f, none)
    else
      let span ← spanInFile span
      return ({ f with bindings := f.bindings.put name.text { name := name.text, type := t, span := span } },
        some { id := id, block := block, index := index, kind := .decl, binding := some name.text,
               span := span })
  | .temp type target => do
    let t ← resolveType type
    let target ← buildTarget target
    let span ← spanInFile span
    return (f, some { id := id, block := block, index := index, kind := .moveOut, binding := none,
                      target := some target, tempType := some t, span := span })
  | .move flags place target => do
    let target ← buildTarget target
    let span ← spanInFile span
    return (f, some { id := id, block := block, index := index, kind := .moveOut,
                      binding := some place.binding, path := place.path,
                      target := some target, explicit := decide (.explicit ∈ flags),
                      viaForward := decide (.fwd ∈ flags), span := span })
  | .read place => access .read place
  | .write place => access .write place
  | .addr place => access .addrOf place
where
  access (kind : SiteKind) (place : PlaceExpr) : Assemble (Function × Option Site) := do
    let span ← spanInFile span
    return (f, some { id := id, block := block, index := index, kind := kind,
                      binding := some place.binding, path := place.path, span := span })

def buildStatements (id : BlockId) : List Statement → Body → Block → Assemble (Body × Block)
  | [], body, blk => return (body, blk)
  | .ret :: rest, body, blk => buildStatements id rest body blk
  | .edge word dst :: rest, body, blk => do
    let dst ← valueOf dst
    buildStatements id rest body
      { blk with edges := blk.edges ++ [{ src := id, dst := dst, kind := word.kind }] }
  | .jump label :: rest, body, blk =>
    let target := lastWrite label body.labels
    let next := if target.isSome then body.nextDangling else body.nextDangling + 1
    let edge : Edge :=
      { src := id, dst := target.getD body.nextDangling, kind := .jump, label := some label }
    buildStatements id rest { body with nextDangling := next } { blk with edges := blk.edges ++ [edge] }
  | .site s span :: rest, body, blk => do
    let (f, site) ← buildSite body.function body.nextSite id blk.sites.length span s
    let next := body.nextSite + site.toList.length
    buildStatements id rest { body with function := f, nextSite := next }
      { blk with sites := blk.sites ++ site.toList }

def buildCaptures (parent : Option Function) (span : Span) : List String → Function → Assemble Function
  | [], f => return f
  | name :: rest, f => do
    let type ← match parent.bind fun p => p.binding? name with
      | some outer => pure outer.type
      | none =>
        report "E_UNKNOWN_CAPTURE" s!"'{f.name}' captures unknown binding '{name}'" span
        onTable TypeTable.ensureUnknown
    buildCaptures parent span rest
      { f with bindings := f.bindings.put name { name := name, type := type, captured := true } }

def buildParam (index : Nat) (p : Parameter) (f : Function) : Assemble Function := do
  let type ← resolveType p.type
  let mode := p.mode.getD .value
  if f.bindings.contains p.name.text then
    report "E_DUPLICATE_BINDING" s!"duplicate binding '{p.name.text}' in '{f.name}'" p.name.span
    return f
  else
    if p.forward && mode ≠ .moveRef then
      report "E_BAD_FORWARD" s!"only move-ref parameters can be forwarded ('{p.name.text}')" p.name.span
    let span ← spanInFile p.name.span
    return { f with
      bindings := f.bindings.put p.name.text
        { name := p.name.text, type := type, isParam := true, mode := mode, span := span }
      params := f.params ++ [p.name.text]
      forwards := if p.forward then f.forwards ++ [(index : Int)] else f.forwards }

def buildParams : Nat → List Parameter → Function → Assemble Function
  | _, [], f => return f
  | index, p :: rest, f => do buildParams (index + 1) rest (← buildParam index p f)

def openBlocks : List BlockDecl → Function → List (String × BlockId) →
    Assemble (Function × List (String × BlockId) × List (BlockId × List Statement))
  | [], f, labels => return (f, labels, [])
  | b :: rest, f, labels => do
    let id ← valueOf b.id
    if f.hasBlock id then
      report "E_DUPLICATE_BLOCK" s!"block {id} is defined more than once in '{f.name}'" b.span
      openBlocks rest f labels
    else
      let labels' ← match b.label with
        | none => pure labels
        | some l =>
          if (lastWrite l.text labels).isSome then do
            report "E_DUPLICATE_LABEL" s!"label '{l.text}' is defined more than once in '{f.name}'" l.span
            pure labels
          else pure (labels ++ [(l.text, id)])
      let span ← spanInFile b.span
      let (f, labels, kept) ← openBlocks rest
        { f with blocks := f.blocks.put id { label := b.label.map Name.text, span := span } } labels'
      return (f, labels, (id, b.body) :: kept)

def fillBlocks : List (BlockId × List Statement) → Body → Assemble Body
  | [], body => return body
  | (id, statements) :: rest, body => do
    let (body, blk) ← buildStatements id statements body ((body.function.block? id).getD {})
    fillBlocks rest
      { body with function :=
          { body.function with blocks := body.function.blocks.put id blk } }

def buildScopes : List ScopeDecl → Function → Assemble Function
  | [], f => return f
  | s :: rest, f => do
    match f.binding? s.name.text with
    | none =>
      report "E_UNKNOWN_BINDING" s!"scope for undeclared binding '{s.name.text}' in '{f.name}'" s.name.span
      buildScopes rest f
    | some b =>
      if b.isParam || b.captured then
        report "E_BAD_SCOPE"
          s!"'{s.name.text}' is not a local of '{f.name}'; only locals have scopes" s.name.span
        buildScopes rest f
      else
        let region ← s.blocks.mapM valueOf
        buildScopes rest
          { f with bindings := f.bindings.put s.name.text { b with region := some region } }

/-- The largest of several block ids, or minus one. -/
def lastBlock (f : Function) : Int := f.blocks.keys.foldl max (-1)

def buildBody (parent : Option Function) (name : Name) (params : List Parameter)
    (captures : List String) (body : Members) (span : Span) : Assemble Function := do
  let ownSpan ← spanInFile span
  let f : Function := { name := name.text, span := ownSpan, captures := captures }
  let f ← buildCaptures parent span captures f
  let f ← buildParams 0 params f
  let (f, labels, kept) ← openBlocks body.blocks f []
  let f := match kept with
    | [] => f
    | (entry, _) :: _ => { f with entry := entry }
  let filled ← fillBlocks kept
    { function := f, labels := labels, nextSite := 0, nextDangling := lastBlock f + 1 }
  buildScopes body.scopes filled.function

mutual

def buildFunction (parent : Option Function) : FunctionDecl → Assemble Function
  | .mk name params captures body span => do
    let f ← buildBody parent name params captures body span
    let nested ← buildNested f body
    return { f with nested := nested }

def buildNested (parent : Function) : Members → Assemble (List Function)
  | .nil => return []
  | .block _ rest => buildNested parent rest
  | .scope _ rest => buildNested parent rest
  | .nested f rest => do
    let inner ← buildFunction (some parent) f
    let others ← buildNested parent rest
    return inner :: others

end

def buildFunctions (seen : List String) : List Declaration → Assemble (List Function)
  | [] => return []
  | .function d :: rest => do
    let f ← buildFunction none d
    if f.name ∈ seen then
      report "E_DUPLICATE_FUNCTION" s!"function '{f.name}' is defined more than once" d.span
      buildFunctions seen rest
    else
      let others ← buildFunctions (f.name :: seen) rest
      return f :: others
  | _ :: rest => buildFunctions seen rest

def ensureNamed (name : String) (ensure : TypeTable → Except TypeError (TypeTable × TypeId)) :
    Assemble Unit := do
  if (← lookupType name).isNone then
    let _ ← onTable ensure

def buildDeclarations (ds : List Declaration) : Assemble (List Function) := do
  ensureNamed "Int" TypeTable.ensureInt
  ensureNamed "Bool" TypeTable.ensureBool
  let structs ← declareTypes ds
  defineStructs structs
  buildFunctions [] ds

end Text

namespace Program

/-- Adds a text to a program. A text that cannot be read adds one diagnostic and nothing else. -/
def addText (p : Program) (text : String) (file : Option String) : Except Fault Program :=
  match Text.readText text with
  | .error e => .ok { p with diagnostics := p.diagnostics ++
      [{ message := e.message, code := some "E_SYNTAX", phase := some "parser",
         span := { e.span with file := file } }] }
  | .ok ds => do
    let (functions, b) ← (Text.buildDeclarations ds).run
      { file := file, table := p.table, diagnostics := p.diagnostics }
    return { table := b.table, functions := p.functions ++ functions, diagnostics := b.diagnostics }

def ofTexts (texts : List (String × Option String)) : Except Fault Program :=
  texts.foldlM (fun p t => p.addText t.1 t.2) {}

end Program
end MovePlan
