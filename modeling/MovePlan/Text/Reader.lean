import MovePlan.Text.Declaration
import MovePlan.Text.Expected

set_option autoImplicit false

namespace MovePlan.Text
open Expected

abbrev Read (α : Type) := Head → Except ReadError (α × Head)

def Head.isAt (h : Head) (t : Terminal) : Bool := h.token.terminal = t

def Head.isWord (h : Head) (k : Keyword) : Bool := h.isAt (.keyword k)

def Head.isMark (h : Head) (m : Mark) : Bool := h.isAt (.mark m)

def refuse {α : Type} (h : Head) : Except ReadError α := .error (.unexpected h.token)

def take (t : Terminal) (after : List Terminal) : Read Token := fun h =>
  if h.isAt t then do return (h.token, ← h.pass after) else refuse h

def takeWord (k : Keyword) (after : List Terminal) : Read Token := take (.keyword k) after

def takeMark (m : Mark) (after : List Terminal) : Read Token := take (.mark m) after

def takeName (after : List Terminal) : Read Name := fun h => do
  let (t, h) ← take .name after h
  return ({ text := t.text, span := t.span }, h)

def takeNumber (after : List Terminal) : Read Numeral := fun h => do
  let (t, h) ← take .number after h
  return (.ofText t.text, h)

def readType : Nat → Read TypeExpr
  | 0, h => refuse h
  | fuel + 1, h => do
    if h.isMark .star then
      let h ← h.pass type
      let (t, h) ← readType fuel h
      return (.pointer t, h)
    else if h.isMark .ampersand then
      let h ← h.pass afterAmpersand
      if h.isWord .mutable then
        let h ← h.pass type
        let (t, h) ← readType fuel h
        return (.reference true t, h)
      else
        let (t, h) ← readType fuel h
        return (.reference false t, h)
    else
      let (n, h) ← takeName afterType h
      return (.named n, h)

def readCanFail : Read Bool := fun h => do
  if h.isMark .openParen then
    let h ← h.pass canFail
    let (_, h) ← takeWord .canFail (only .closeParen) h
    let (_, h) ← takeMark .closeParen afterAttribute h
    return (true, h)
  else return (false, h)

def readAttributes : Nat → Read (List TypeAttribute)
  | 0, h => .ok ([], h)
  | fuel + 1, h => do
    if h.isWord .drop then
      let h ← h.pass afterAttribute
      let (rest, h) ← readAttributes fuel h
      return (.drop :: rest, h)
    else if h.isWord .moveCtor then
      let first := h.token
      let h ← h.pass afterMoveWord
      let (fails, h) ← readCanFail h
      let span := spanOf first h.last
      let (rest, h) ← readAttributes fuel h
      return (.moveCtor fails span :: rest, h)
    else if h.isWord .moveAssign then
      let first := h.token
      let h ← h.pass afterMoveWord
      let (fails, h) ← readCanFail h
      let span := spanOf first h.last
      let (rest, h) ← readAttributes fuel h
      return (.moveAssign fails span :: rest, h)
    else return ([], h)

def readTypeDecl (fuel : Nat) : Read Declaration := fun h => do
  let first := h.token
  let h ← h.pass aName
  let (name, h) ← takeName typeKind h
  let isScalar := h.isWord .scalar
  if !isScalar && !h.isWord .foreign then refuse h
  else
    let h ← h.pass afterKind
    let (attributes, h) ← readAttributes fuel h
    return (.type name isScalar attributes (spanOf first h.last), h)

def readField (fuel : Nat) : Read FieldDecl := fun h => do
  let (name, h) ← takeName (only .colon) h
  let (_, h) ← takeMark .colon type h
  let (t, h) ← readType fuel h
  return ({ name := name, type := t }, h)

/-- The fields up to the closing brace. A comma may stand after the last one. -/
def readFields : Nat → Read (List FieldDecl)
  | 0, h => .ok ([], h)
  | fuel + 1, h => do
    if h.isMark .closeBrace then return ([], h)
    else
      let (f, h) ← readField fuel h
      if h.isMark .comma then
        let h ← h.pass field
        let (rest, h) ← readFields fuel h
        return (f :: rest, h)
      else return ([f], h)

def readStructDecl (fuel : Nat) : Read Declaration := fun h => do
  let first := h.token
  let h ← h.pass aName
  let (name, h) ← takeName afterStructName h
  let (attributes, h) ← readAttributes fuel h
  let (_, h) ← takeMark .openBrace field h
  let (fields, h) ← readFields fuel h
  let (_, h) ← takeMark .closeBrace item h
  return (.struct name attributes fields (spanOf first h.last), h)

def readPath : Nat → Read Path
  | 0, h => .ok ([], h)
  | fuel + 1, h => do
    if h.isMark .dot then
      let h ← h.pass aName
      let (n, h) ← takeName afterPlaceName h
      let (rest, h) ← readPath fuel h
      return (n.text :: rest, h)
    else return ([], h)

def readPlace (fuel : Nat) : Read PlaceExpr := fun h => do
  let (n, h) ← takeName afterPlaceName h
  let (path, h) ← readPath fuel h
  return ({ binding := n.text, path := path }, h)

def targetFlags : List (Keyword × TargetFlag) :=
  [(.value, .value), (.moveRef, .moveRef), (.ref, .ref), (.mayFail, .mayFail), (.forward, .forward)]

def readTargetFlags : Nat → Read (List TargetFlag)
  | 0, h => .ok ([], h)
  | fuel + 1, h => do
    match targetFlags.find? fun f => h.isWord f.1 with
    | some (_, flag) =>
      let h ← h.pass targetFlag
      let (rest, h) ← readTargetFlags fuel h
      return (flag :: rest, h)
    | none => return ([], h)

def readTarget (fuel : Nat) : Read TargetExpr := fun h => do
  if h.isWord .call then
    let h ← h.pass aName
    let (callee, h) ← takeName (only .openBracket) h
    let (_, h) ← takeMark .openBracket aNumber h
    let (index, h) ← takeNumber (only .closeBracket) h
    let (_, h) ← takeMark .closeBracket targetFlag h
    let (flags, h) ← readTargetFlags fuel h
    return (.call callee.text index flags, h)
  else if h.isWord .result then
    let h ← h.pass targetFlag
    let (flags, h) ← readTargetFlags fuel h
    return (.result flags, h)
  else
    let (_, h) ← takeWord .assign aName h
    let (dest, h) ← takeName statement h
    return (.assign dest.text, h)

def readMoveFlags : Nat → Read (List MoveFlag)
  | 0, h => .ok ([], h)
  | fuel + 1, h => do
    if h.isWord .explicit then
      let h ← h.pass moveOperandRest
      let (rest, h) ← readMoveFlags fuel h
      return (.explicit :: rest, h)
    else if h.isWord .fwd then
      let h ← h.pass moveOperandRest
      let (rest, h) ← readMoveFlags fuel h
      return (.fwd :: rest, h)
    else return ([], h)

def readMove (fuel : Nat) : Read SiteExpr := fun h => do
  if h.isWord .temp then
    let h ← h.pass type
    let (t, h) ← readType fuel h
    let (_, h) ← takeMark .arrow target h
    let (target, h) ← readTarget fuel h
    return (.temp t target, h)
  else
    let (flags, h) ← readMoveFlags fuel h
    let (place, h) ← readPlace fuel h
    let (_, h) ← takeMark .arrow target h
    let (target, h) ← readTarget fuel h
    return (.move flags place target, h)

def readSite? (fuel : Nat) : Read (Option SiteExpr) := fun h => do
  if h.isWord .decl then
    let h ← h.pass aName
    let (name, h) ← takeName (only .colon) h
    let (_, h) ← takeMark .colon type h
    let (t, h) ← readType fuel h
    return (some (.decl name t), h)
  else if h.isWord .read then
    let (place, h) ← readPlace fuel (← h.pass aName)
    return (some (.read place), h)
  else if h.isWord .write then
    let (place, h) ← readPlace fuel (← h.pass aName)
    return (some (.write place), h)
  else if h.isWord .addr then
    let (place, h) ← readPlace fuel (← h.pass aName)
    return (some (.addr place), h)
  else if h.isWord .move then
    let (site, h) ← readMove fuel (← h.pass moveOperand)
    return (some site, h)
  else return (none, h)

def edgeWords : List (Keyword × EdgeWord) :=
  [(.goto, .goto), (.onTrue, .onTrue), (.onFalse, .onFalse), (.back, .back), (.skip, .skip)]

def readStatement? (fuel : Nat) : Read (Option Statement) := fun h => do
  let first := h.token
  let (site, h) ← readSite? fuel h
  match site with
  | some s => return (some (.site s (spanOf first h.last)), h)
  | none =>
    match edgeWords.find? fun w => h.isWord w.1 with
    | some (_, word) =>
      let h ← h.pass aNumber
      let (dst, h) ← takeNumber statement h
      return (some (.edge word dst), h)
    | none =>
      if h.isWord .jump then
        let h ← h.pass aName
        let (label, h) ← takeName statement h
        return (some (.jump label.text), h)
      else if h.isWord .ret then return (some .ret, ← h.pass statement)
      else return (none, h)

def readStatements : Nat → Read (List Statement)
  | 0, h => .ok ([], h)
  | fuel + 1, h => do
    let (s, h) ← readStatement? fuel h
    match s with
    | none => return ([], h)
    | some s =>
      let (rest, h) ← readStatements fuel h
      return (s :: rest, h)

def readBlock (fuel : Nat) : Read BlockDecl := fun h => do
  let first := h.token
  let h ← h.pass aNumber
  let (id, h) ← takeNumber blockLabel h
  let (label, h) ← if h.isAt .name then (do
      let (n, h) ← takeName (only .colon) h
      return (some n, h)) else .ok (none, h)
  let (_, h) ← takeMark .colon statement h
  let (body, h) ← readStatements fuel h
  return ({ id := id, label := label, body := body, span := spanOf first h.last }, h)

def readNumbers : Nat → Read (List Numeral)
  | 0, h => .ok ([], h)
  | fuel + 1, h => do
    if h.isAt .number then
      let (n, h) ← takeNumber scopeNumberRest h
      let (rest, h) ← readNumbers fuel h
      return (n :: rest, h)
    else return ([], h)

def readScope (fuel : Nat) : Read ScopeDecl := fun h => do
  let h ← h.pass aName
  let (name, h) ← takeName (only .colon) h
  let (_, h) ← takeMark .colon aNumber h
  let (first, h) ← takeNumber scopeNumberRest h
  let (rest, h) ← readNumbers fuel h
  return ({ name := name, blocks := first :: rest }, h)

def passModes : List (Keyword × PassMode) :=
  [(.value, .value), (.moveRef, .moveRef), (.ref, .plainRef)]

def readParam (fuel : Nat) : Read Parameter := fun h => do
  let (name, h) ← takeName (only .colon) h
  let (_, h) ← takeMark .colon paramType h
  let (mode, h) ← match passModes.find? fun m => h.isWord m.1 with
    | some (_, mode) => (do return (some mode, ← h.pass type))
    | none => .ok (none, h)
  let (t, h) ← readType fuel h
  let (forward, h) ← if h.isWord .forward then (do return (true, ← h.pass nameListRest))
    else .ok (false, h)
  return ({ name := name, mode := mode, type := t, forward := forward }, h)

def readMoreParams : Nat → Read (List Parameter)
  | 0, h => .ok ([], h)
  | fuel + 1, h => do
    if h.isMark .comma then
      let h ← h.pass aName
      let (p, h) ← readParam fuel h
      let (rest, h) ← readMoreParams fuel h
      return (p :: rest, h)
    else return ([], h)

def readParams (fuel : Nat) : Read (List Parameter) := fun h => do
  if h.isMark .closeParen then return ([], h)
  else
    let (p, h) ← readParam fuel h
    let (rest, h) ← readMoreParams fuel h
    return (p :: rest, h)

def readMoreNames : Nat → Read (List String)
  | 0, h => .ok ([], h)
  | fuel + 1, h => do
    if h.isMark .comma then
      let h ← h.pass aName
      let (n, h) ← takeName nameListRest h
      let (rest, h) ← readMoreNames fuel h
      return (n.text :: rest, h)
    else return ([], h)

def readCaptures : Nat → Read (List String)
  | 0, h => .ok ([], h)
  | fuel + 1, h => do
    if h.isWord .captures then
      let h ← h.pass (only .openParen)
      let (_, h) ← takeMark .openParen aName h
      let (n, h) ← takeName nameListRest h
      let (names, h) ← readMoreNames fuel h
      let (_, h) ← takeMark .closeParen bodyOrCaptures h
      let (rest, h) ← readCaptures fuel h
      return (n.text :: names ++ rest, h)
    else return ([], h)

mutual

def readFunction : Nat → Read FunctionDecl
  | 0, h => refuse h
  | fuel + 1, h => do
    let first := h.token
    let h ← h.pass aName
    let (name, h) ← takeName (only .openParen) h
    let (_, h) ← takeMark .openParen param h
    let (params, h) ← readParams fuel h
    let (_, h) ← takeMark .closeParen bodyOrCaptures h
    let (captures, h) ← readCaptures fuel h
    let (_, h) ← takeMark .openBrace member h
    let (body, h) ← readMembers fuel h
    let (_, h) ← takeMark .closeBrace afterFunction h
    return (.mk name params captures body (spanOf first h.last), h)

/-- What a body holds, up to the token that begins none of it. -/
def readMembers : Nat → Read Members
  | 0, h => .ok (.nil, h)
  | fuel + 1, h => do
    if h.isWord .block then
      let (b, h) ← readBlock fuel h
      let (rest, h) ← readMembers fuel h
      return (.block b rest, h)
    else if h.isWord .scope then
      let (s, h) ← readScope fuel h
      let (rest, h) ← readMembers fuel h
      return (.scope s rest, h)
    else if h.isWord .fn then
      let (f, h) ← readFunction fuel h
      let (rest, h) ← readMembers fuel h
      return (.nested f rest, h)
    else return (.nil, h)

end

def readDeclarations : Nat → Head → Except ReadError (List Declaration)
  | 0, h => refuse h
  | fuel + 1, h => do
    if h.isAt .finish then return []
    else if h.isWord .type then
      let (d, h) ← readTypeDecl fuel h
      return d :: (← readDeclarations fuel h)
    else if h.isWord .struct then
      let (d, h) ← readStructDecl fuel h
      return d :: (← readDeclarations fuel h)
    else if h.isWord .fn then
      let (f, h) ← readFunction fuel h
      return .function f :: (← readDeclarations fuel h)
    else refuse h

def readText (text : String) : Except ReadError (List Declaration) := do
  readDeclarations (text.length + 2) (← Head.start item text)

end MovePlan.Text
