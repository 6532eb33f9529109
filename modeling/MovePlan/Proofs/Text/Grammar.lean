import MovePlan.Proofs.Text.Layout
import MovePlan.Text.Declaration

set_option autoImplicit false

namespace MovePlan.Text

def Name.plain (n : Name) : Name := { text := n.text }

def TypeExpr.plain : TypeExpr → TypeExpr
  | named n => named n.plain
  | pointer t => pointer t.plain
  | reference isMut t => reference isMut t.plain

def TypeAttribute.plain : TypeAttribute → TypeAttribute
  | moveCtor fails _ => moveCtor fails {}
  | moveAssign fails _ => moveAssign fails {}
  | drop => drop

def FieldDecl.plain (f : FieldDecl) : FieldDecl := { name := f.name.plain, type := f.type.plain }

def Parameter.plain (p : Parameter) : Parameter :=
  { p with name := p.name.plain, type := p.type.plain }

def SiteExpr.plain : SiteExpr → SiteExpr
  | decl name type => decl name.plain type.plain
  | temp type target => temp type.plain target
  | read place => read place
  | write place => write place
  | addr place => addr place
  | move flags place target => move flags place target

def Statement.plain : Statement → Statement
  | site s _ => site s.plain {}
  | edge word dst => edge word dst
  | jump label => jump label
  | ret => ret

def BlockDecl.plain (b : BlockDecl) : BlockDecl :=
  { id := b.id, label := b.label.map Name.plain, body := b.body.map Statement.plain, span := {} }

def ScopeDecl.plain (s : ScopeDecl) : ScopeDecl := { s with name := s.name.plain }

mutual

def FunctionDecl.plain : FunctionDecl → FunctionDecl
  | .mk name params captures body _ =>
    .mk name.plain (params.map Parameter.plain) captures body.plain {}

def Members.plain : Members → Members
  | .nil => .nil
  | .block b rest => .block b.plain rest.plain
  | .scope s rest => .scope s.plain rest.plain
  | .nested f rest => .nested f.plain rest.plain

end

def Declaration.plain : Declaration → Declaration
  | type name isScalar attributes _ => type name.plain isScalar (attributes.map TypeAttribute.plain) {}
  | struct name attributes fields _ =>
    struct name.plain (attributes.map TypeAttribute.plain) (fields.map FieldDecl.plain) {}
  | function f => function f.plain

theorem Name.plain_eq_iff {n m : Name} : n.plain = m.plain ↔ n.text = m.text := by
  simp [Name.plain]

def TargetFlag.word : TargetFlag → Keyword
  | value => .value
  | moveRef => .moveRef
  | ref => .ref
  | mayFail => .mayFail
  | forward => .forward

def MoveFlag.word : MoveFlag → Keyword
  | explicit => .explicit
  | fwd => .fwd

def EdgeWord.word : EdgeWord → Keyword
  | goto => .goto
  | onTrue => .onTrue
  | onFalse => .onFalse
  | back => .back
  | skip => .skip

def modeWord : PassMode → Keyword
  | .value => .value
  | .moveRef => .moveRef
  | .plainRef => .ref

section
variable {α : Type}

/-- Phrases one after another. -/
inductive Each (writes : α → List Lexeme → Prop) : List α → List Lexeme → Prop
  | nil : Each writes [] []
  | cons {a : α} {as : List α} {ls rest : List Lexeme} (h : writes a ls) (hrest : Each writes as rest) :
      Each writes (a :: as) (ls ++ rest)

inductive After (m : Mark) (writes : α → List Lexeme → Prop) : α → List Lexeme → Prop
  | mk {a : α} {ls : List Lexeme} (h : writes a ls) : After m writes a (.mark m :: ls)

end

inductive WritesName : String → List Lexeme → Prop
  | mk {s : String} (h : isIdentifier s = true) : WritesName s [.name s h]

inductive WritesNumber : Numeral → List Lexeme → Prop
  | mk {s : String} (h : isNumber s = true) : WritesNumber (Numeral.ofText s) [.number s h]

inductive WritesType : TypeExpr → List Lexeme → Prop
  | named {name : Name} {ls : List Lexeme} (h : WritesName name.text ls) : WritesType (.named name) ls
  | pointer {t : TypeExpr} {ls : List Lexeme} (h : WritesType t ls) :
      WritesType (.pointer t) (.mark .star :: ls)
  | shared {t : TypeExpr} {ls : List Lexeme} (h : WritesType t ls) :
      WritesType (.reference false t) (.mark .ampersand :: ls)
  | mutable {t : TypeExpr} {ls : List Lexeme} (h : WritesType t ls) :
      WritesType (.reference true t) (.mark .ampersand :: .word .mutable :: ls)

/-- The mark that an operation can fail. -/
def failMark : Bool → List Lexeme
  | true => [.mark .openParen, .word .canFail, .mark .closeParen]
  | false => []

inductive WritesAttribute : TypeAttribute → List Lexeme → Prop
  | drop : WritesAttribute .drop [.word .drop]
  | moveCtor (fails : Bool) (span : Span) :
      WritesAttribute (.moveCtor fails span) (.word .moveCtor :: failMark fails)
  | moveAssign (fails : Bool) (span : Span) :
      WritesAttribute (.moveAssign fails span) (.word .moveAssign :: failMark fails)

inductive WritesField : FieldDecl → List Lexeme → Prop
  | mk {name : Name} {t : TypeExpr} {ns ls : List Lexeme} (hname : WritesName name.text ns)
      (h : WritesType t ls) : WritesField { name := name, type := t } (ns ++ .mark .colon :: ls)

inductive WritesFields : List FieldDecl → List Lexeme → Prop
  | nil : WritesFields [] []
  | last {f : FieldDecl} {ls : List Lexeme} (h : WritesField f ls) : WritesFields [f] ls
  | cons {f : FieldDecl} {fs : List FieldDecl} {ls rest : List Lexeme} (h : WritesField f ls)
      (hrest : WritesFields fs rest) : WritesFields (f :: fs) (ls ++ .mark .comma :: rest)

inductive WritesPlace : PlaceExpr → List Lexeme → Prop
  | mk {binding : String} {path : Path} {ns ls : List Lexeme} (hname : WritesName binding ns)
      (h : Each (After .dot WritesName) path ls) :
      WritesPlace { binding := binding, path := path } (ns ++ ls)

def flagWords (flags : List TargetFlag) : List Lexeme := flags.map fun f => .word f.word

inductive WritesTarget : TargetExpr → List Lexeme → Prop
  | call {callee : String} {index : Numeral} {ns is : List Lexeme} (hname : WritesName callee ns)
      (hindex : WritesNumber index is) (flags : List TargetFlag) :
      WritesTarget (.call callee index flags)
        (.word .call :: (ns ++ .mark .openBracket :: (is ++ .mark .closeBracket :: flagWords flags)))
  | result (flags : List TargetFlag) : WritesTarget (.result flags) (.word .result :: flagWords flags)
  | assign {dest : String} {ns : List Lexeme} (hname : WritesName dest ns) :
      WritesTarget (.assign dest) (.word .assign :: ns)

inductive WritesSite : SiteExpr → List Lexeme → Prop
  | decl {name : Name} {t : TypeExpr} {ns ls : List Lexeme} (hname : WritesName name.text ns)
      (h : WritesType t ls) : WritesSite (.decl name t) (.word .decl :: (ns ++ .mark .colon :: ls))
  | read {place : PlaceExpr} {ls : List Lexeme} (h : WritesPlace place ls) :
      WritesSite (.read place) (.word .read :: ls)
  | write {place : PlaceExpr} {ls : List Lexeme} (h : WritesPlace place ls) :
      WritesSite (.write place) (.word .write :: ls)
  | addr {place : PlaceExpr} {ls : List Lexeme} (h : WritesPlace place ls) :
      WritesSite (.addr place) (.word .addr :: ls)
  | move (flags : List MoveFlag) {place : PlaceExpr} {target : TargetExpr} {ls ts : List Lexeme}
      (h : WritesPlace place ls) (htarget : WritesTarget target ts) :
      WritesSite (.move flags place target)
        (.word .move :: (flags.map (fun f => .word f.word) ++ (ls ++ .mark .arrow :: ts)))
  | temp {t : TypeExpr} {target : TargetExpr} {ls ts : List Lexeme} (h : WritesType t ls)
      (htarget : WritesTarget target ts) :
      WritesSite (.temp t target) (.word .move :: .word .temp :: (ls ++ .mark .arrow :: ts))

inductive WritesStatement : Statement → List Lexeme → Prop
  | site {s : SiteExpr} {ls : List Lexeme} (h : WritesSite s ls) (span : Span) :
      WritesStatement (.site s span) ls
  | edge (word : EdgeWord) {dst : Numeral} {ls : List Lexeme} (h : WritesNumber dst ls) :
      WritesStatement (.edge word dst) (.word word.word :: ls)
  | jump {label : String} {ls : List Lexeme} (h : WritesName label ls) :
      WritesStatement (.jump label) (.word .jump :: ls)
  | ret : WritesStatement .ret [.word .ret]

inductive WritesLabel : Option Name → List Lexeme → Prop
  | none : WritesLabel none []
  | some {name : Name} {ls : List Lexeme} (h : WritesName name.text ls) : WritesLabel (some name) ls

inductive WritesBlock : BlockDecl → List Lexeme → Prop
  | mk {id : Numeral} {label : Option Name} {body : List Statement} {is ns ls : List Lexeme}
      (hid : WritesNumber id is) (hlabel : WritesLabel label ns) (h : Each WritesStatement body ls)
      (span : Span) : WritesBlock { id := id, label := label, body := body, span := span }
        (.word .block :: (is ++ (ns ++ .mark .colon :: ls)))

inductive WritesScope : ScopeDecl → List Lexeme → Prop
  | mk {name : Name} {first : Numeral} {others : List Numeral} {ns is ls : List Lexeme}
      (hname : WritesName name.text ns) (hfirst : WritesNumber first is)
      (h : Each WritesNumber others ls) :
      WritesScope { name := name, blocks := first :: others }
        (.word .scope :: (ns ++ .mark .colon :: (is ++ ls)))

def modeWords : Option PassMode → List Lexeme
  | some mode => [.word (modeWord mode)]
  | none => []

def forwardWords : Bool → List Lexeme
  | true => [.word .forward]
  | false => []

inductive WritesParam : Parameter → List Lexeme → Prop
  | mk {name : Name} (mode : Option PassMode) {t : TypeExpr} (forward : Bool) {ns ls : List Lexeme}
      (hname : WritesName name.text ns) (h : WritesType t ls) :
      WritesParam { name := name, mode := mode, type := t, forward := forward }
        (ns ++ .mark .colon :: (modeWords mode ++ (ls ++ forwardWords forward)))

inductive WritesParams : List Parameter → List Lexeme → Prop
  | nil : WritesParams [] []
  | cons {p : Parameter} {ps : List Parameter} {ls rest : List Lexeme} (h : WritesParam p ls)
      (hrest : Each (After .comma WritesParam) ps rest) : WritesParams (p :: ps) (ls ++ rest)

inductive WritesCaptures : List String → List Lexeme → Prop
  | nil : WritesCaptures [] []
  | cons {name : String} {names others : List String} {ns ls rest : List Lexeme} (hname : WritesName name ns)
      (h : Each (After .comma WritesName) names ls) (hrest : WritesCaptures others rest) :
      WritesCaptures (name :: names ++ others)
        (.word .captures :: .mark .openParen :: (ns ++ (ls ++ .mark .closeParen :: rest)))

mutual

inductive WritesFunction : FunctionDecl → List Lexeme → Prop
  | mk {name : Name} {params : List Parameter} {captures : List String} {body : Members}
      {ns ps cs bs : List Lexeme} (hname : WritesName name.text ns) (hparams : WritesParams params ps)
      (hcaptures : WritesCaptures captures cs) (h : WritesMembers body bs) (span : Span) :
      WritesFunction (.mk name params captures body span)
        (.word .fn :: (ns ++ .mark .openParen :: (ps ++ .mark .closeParen ::
          (cs ++ .mark .openBrace :: (bs ++ [.mark .closeBrace])))))

inductive WritesMembers : Members → List Lexeme → Prop
  | nil : WritesMembers .nil []
  | block {b : BlockDecl} {rest : Members} {ls rs : List Lexeme} (h : WritesBlock b ls)
      (hrest : WritesMembers rest rs) : WritesMembers (.block b rest) (ls ++ rs)
  | scope {s : ScopeDecl} {rest : Members} {ls rs : List Lexeme} (h : WritesScope s ls)
      (hrest : WritesMembers rest rs) : WritesMembers (.scope s rest) (ls ++ rs)
  | nested {f : FunctionDecl} {rest : Members} {ls rs : List Lexeme} (h : WritesFunction f ls)
      (hrest : WritesMembers rest rs) : WritesMembers (.nested f rest) (ls ++ rs)

end

inductive WritesDeclaration : Declaration → List Lexeme → Prop
  | type {name : Name} (isScalar : Bool) {attributes : List TypeAttribute} {ns ls : List Lexeme}
      (hname : WritesName name.text ns) (h : Each WritesAttribute attributes ls) (span : Span) :
      WritesDeclaration (.type name isScalar attributes span)
        (.word .type :: (ns ++ .word (if isScalar then .scalar else .foreign) :: ls))
  | struct {name : Name} {attributes : List TypeAttribute} {fields : List FieldDecl}
      {ns ls fs : List Lexeme} (hname : WritesName name.text ns) (h : Each WritesAttribute attributes ls)
      (hfields : WritesFields fields fs) (span : Span) :
      WritesDeclaration (.struct name attributes fields span)
        (.word .struct :: (ns ++ (ls ++ .mark .openBrace :: (fs ++ [.mark .closeBrace]))))
  | function {f : FunctionDecl} {ls : List Lexeme} (h : WritesFunction f ls) :
      WritesDeclaration (.function f) ls

/-- The declarations of a text, written one after another. -/
abbrev Writes : List Declaration → List Lexeme → Prop := Each WritesDeclaration

end MovePlan.Text
