import MovePlan.Span
import MovePlan.Order

set_option autoImplicit false

namespace MovePlan

abbrev TypeId := Int

inductive TypeKind
  | scalar
  | struct
  /-- A nominal type of the runtime whose fields are not visible. -/
  | foreign
  | pointer
  | reference
  | unknown
deriving DecidableEq, Inhabited

namespace TypeKind

def label : TypeKind → String
  | scalar => "scalar"
  | struct => "struct"
  | foreign => "opaque"
  | pointer => "pointer"
  | reference => "ref"
  | unknown => "unknown"

def isNominal : TypeKind → Bool
  | pointer | reference => false
  | _ => true

end TypeKind

structure UserMove where
  canFail : Bool := false
  span : Span := {}
deriving DecidableEq, Inhabited

structure Field where
  name : String
  type : TypeId
deriving DecidableEq, Inhabited

structure UserOps where
  moveCtor : Option UserMove := none
  moveAssign : Option UserMove := none
  destructor : Bool := false
  span : Span := {}
deriving DecidableEq, Inhabited

structure TypeDef where
  kind : TypeKind
  name : String
  /-- The type that a pointer or a reference leads to. -/
  target : Option TypeId := none
  fields : List Field := []
  ops : UserOps := {}
  /-- Whether a reference may be written through. -/
  mutable : Option Bool := none
deriving DecidableEq, Inhabited

def TypeDef.fieldNamed? (d : TypeDef) (name : String) : Option Field :=
  d.fields.find? (·.name = name)

inductive TypeError
  | duplicateName (name : String)
  | notStruct (name : String)
  | duplicateField (struct field : String)
  | unknownFieldType (type : TypeId) (struct field : String)
  | unknownType (type : TypeId)
  | notClassified (type : TypeId)
  | noField (type field : String)
deriving DecidableEq, Inhabited

def TypeError.message? : TypeError → Option String
  | duplicateName n => s!"duplicate type name '{n}'"
  | notStruct n => s!"type '{n}' is not a struct"
  | duplicateField s f => s!"duplicate field '{f}' in struct '{s}'"
  | unknownFieldType t s f => (Numeral.text? t).map fun t => s!"unknown field type id {t} for '{s}.{f}'"
  | unknownType t => Numeral.text? t
  | notClassified t => (Numeral.text? t).map fun t => s!"type id {t} is not part of this type model"
  | noField t f => s!"type '{t}' has no field '{f}'"

/-- The definitions in the order of their ids, and the basic types that were asked for. -/
structure TypeTable where
  defs : List TypeDef := []
  intType : Option TypeId := none
  boolType : Option TypeId := none
  unknownType : Option TypeId := none
deriving DecidableEq, Inhabited

namespace TypeTable

def size (t : TypeTable) : Nat := t.defs.length

def get? (t : TypeTable) (id : TypeId) : Option TypeDef :=
  if 1 ≤ id then t.defs[(id - 1).toNat]? else none

def get (t : TypeTable) (id : TypeId) : Except TypeError TypeDef :=
  match t.get? id with
  | some d => .ok d
  | none => .error (.unknownType id)

def contains (t : TypeTable) (id : TypeId) : Bool := (t.get? id).isSome

def ids (t : TypeTable) : List TypeId := (List.range t.size).map fun (i : Nat) => (i : Int) + 1

/-- The id of the first definition with a property, where `id` is the id of the first one listed. -/
def findFrom (p : TypeDef → Bool) (id : TypeId) : List TypeDef → Option TypeId
  | [] => none
  | d :: ds => if p d then some id else findFrom p (id + 1) ds

/-- Nominal types alone have names to look up. -/
def lookup (t : TypeTable) (name : String) : Option TypeId :=
  findFrom (fun d => d.kind.isNominal && d.name == name) 1 t.defs

/-- Numbers a definition; its name is not checked. -/
def append (t : TypeTable) (d : TypeDef) : TypeTable × TypeId :=
  ({ t with defs := t.defs ++ [d] }, (t.size : Int) + 1)

def register (t : TypeTable) (d : TypeDef) : Except TypeError (TypeTable × TypeId) :=
  if (t.lookup d.name).isSome then .error (.duplicateName d.name) else .ok (t.append d)

def newScalar (t : TypeTable) (name : String) : Except TypeError (TypeTable × TypeId) :=
  t.register { kind := .scalar, name := name }

def newForeign (t : TypeTable) (name : String) (ops : UserOps) :
    Except TypeError (TypeTable × TypeId) :=
  t.register { kind := .foreign, name := name, ops := ops }

def declareStruct (t : TypeTable) (name : String) (ops : UserOps) :
    Except TypeError (TypeTable × TypeId) :=
  t.register { kind := .struct, name := name, ops := ops }

def fieldFault (t : TypeTable) (struct : String) (seen : List String) :
    List Field → Option TypeError
  | [] => none
  | f :: fs =>
    if f.name ∈ seen then some (.duplicateField struct f.name)
    else if !t.contains f.type then some (.unknownFieldType f.type struct f.name)
    else fieldFault t struct (f.name :: seen) fs

def defineStruct (t : TypeTable) (id : TypeId) (fields : List Field) : Except TypeError TypeTable := do
  let d ← t.get id
  if d.kind ≠ .struct then .error (.notStruct d.name)
  else match t.fieldFault d.name [] fields with
    | some e => .error e
    | none => .ok { t with defs := t.defs.set (id - 1).toNat { d with fields := fields } }

/-- Declares and defines a struct. If its fields are refused, the struct stays declared. -/
def newStruct (t : TypeTable) (name : String) (fields : List Field) (ops : UserOps) :
    TypeTable × Except TypeError TypeId :=
  match t.declareStruct name ops with
  | .error e => (t, .error e)
  | .ok (t, id) =>
    match t.defineStruct id fields with
    | .error e => (t, .error e)
    | .ok t => (t, .ok id)

def pointerName (inner : String) : String := s!"Ptr<{inner}>"

def referenceName (isMut : Bool) (inner : String) : String :=
  if isMut then s!"RefMut<{inner}>" else s!"Ref<{inner}>"

def newPointer (t : TypeTable) (inner : TypeId) : Except TypeError (TypeTable × TypeId) :=
  match findFrom (fun d => d.kind == .pointer && d.target == some inner) 1 t.defs with
  | some id => .ok (t, id)
  | none => do
    let d ← t.get inner
    return t.append { kind := .pointer, name := pointerName d.name, target := some inner }

def newReference (t : TypeTable) (inner : TypeId) (isMut : Bool) :
    Except TypeError (TypeTable × TypeId) :=
  match findFrom (fun d => d.kind == .reference && d.target == some inner && d.mutable == some isMut)
      1 t.defs with
  | some id => .ok (t, id)
  | none => do
    let d ← t.get inner
    return t.append
      { kind := .reference, name := referenceName isMut d.name, target := some inner,
        mutable := some isMut }

def ensureInt (t : TypeTable) : Except TypeError (TypeTable × TypeId) :=
  match t.intType with
  | some id => .ok (t, id)
  | none => do
    let (t, id) ← t.newScalar "Int"
    return ({ t with intType := some id }, id)

def ensureBool (t : TypeTable) : Except TypeError (TypeTable × TypeId) :=
  match t.boolType with
  | some id => .ok (t, id)
  | none => do
    let (t, id) ← t.newScalar "Bool"
    return ({ t with boolType := some id }, id)

/-- The type that stands for every type that could not be named. -/
def ensureUnknown (t : TypeTable) : Except TypeError (TypeTable × TypeId) :=
  match t.unknownType with
  | some id => .ok (t, id)
  | none => do
    let (t, id) ← t.register { kind := .unknown, name := "Unknown" }
    return ({ t with unknownType := some id }, id)

end TypeTable

inductive TypeRef
  | id (id : TypeId)
  | named (name : String)
  | pointer (inner : TypeRef)
  | reference (isMut : Bool) (inner : TypeRef)
deriving DecidableEq, Inhabited

/-- Pointers and references are registered when they are first referred to. A name that is not in the
table stands for id zero, which is never valid. -/
def TypeRef.resolve (t : TypeTable) : TypeRef → Except TypeError (TypeTable × TypeId)
  | id i => .ok (t, i)
  | named n => .ok (t, (t.lookup n).getD 0)
  | pointer r => do
    let (t, i) ← r.resolve t
    t.newPointer i
  | reference isMut r => do
    let (t, i) ← r.resolve t
    t.newReference i isMut

end MovePlan
