import MovePlan.Span

set_option autoImplicit false

/-!
# Tokens

A token is read against the set of terminals that may stand at its place. Where names are expected,
the longest name is taken, and it is a keyword only if it equals one that is expected. Where only
keywords are expected, the longest keyword that the text begins with is taken, whatever follows it.
If nothing that is expected fits, the token is read against all terminals and is then an unexpected
one; if nothing fits at all, its first character belongs to no token.
-/
namespace MovePlan.Text

inductive Keyword
  | type
  | foreign
  | scalar
  | struct
  | moveCtor
  | moveAssign
  | drop
  | canFail
  | mutable
  | fn
  | value
  | moveRef
  | ref
  | forward
  | captures
  | block
  | scope
  | decl
  | read
  | write
  | addr
  | move
  | temp
  | explicit
  | fwd
  | call
  | result
  | assign
  | mayFail
  | goto
  | onTrue
  | onFalse
  | back
  | skip
  | jump
  | ret
deriving DecidableEq, Inhabited

namespace Keyword

def text : Keyword → String
  | type => "type"
  | foreign => "opaque"
  | scalar => "scalar"
  | struct => "struct"
  | moveCtor => "move_ctor"
  | moveAssign => "move_assign"
  | drop => "drop"
  | canFail => "can_fail"
  | mutable => "mut"
  | fn => "fn"
  | value => "value"
  | moveRef => "moveref"
  | ref => "ref"
  | forward => "forward"
  | captures => "captures"
  | block => "block"
  | scope => "scope"
  | decl => "decl"
  | read => "read"
  | write => "write"
  | addr => "addr"
  | move => "move"
  | temp => "temp"
  | explicit => "explicit"
  | fwd => "fwd"
  | call => "call"
  | result => "return"
  | assign => "assign"
  | mayFail => "mayfail"
  | goto => "goto"
  | onTrue => "true"
  | onFalse => "false"
  | back => "back"
  | skip => "skip"
  | jump => "jump"
  | ret => "ret"

/-- All keywords, longer ones first. -/
def all : List Keyword := [
  moveAssign,
  moveCtor,
  captures, explicit, canFail,
  moveRef, mayFail, forward,
  foreign, scalar, struct, result, assign,
  value, block, scope, write, onFalse,
  type, drop, decl, read, addr, move, temp, call, goto, onTrue, back, skip, jump,
  mutable, ref, fwd, ret,
  fn]

def ofText? (s : String) : Option Keyword := all.find? (·.text = s)

end Keyword

inductive Mark
  | comma
  | openBrace
  | closeBrace
  | colon
  | openParen
  | closeParen
  | openBracket
  | closeBracket
  | star
  | ampersand
  | dot
  | arrow
deriving DecidableEq, Inhabited

namespace Mark

def text : Mark → String
  | comma => ","
  | openBrace => "\x7b"
  | closeBrace => "\x7d"
  | colon => ":"
  | openParen => "("
  | closeParen => ")"
  | openBracket => "["
  | closeBracket => "]"
  | star => "*"
  | ampersand => "&"
  | dot => "."
  | arrow => "->"

def label : Mark → String
  | comma => "COMMA"
  | openBrace => "LBRACE"
  | closeBrace => "RBRACE"
  | colon => "COLON"
  | openParen => "LPAR"
  | closeParen => "RPAR"
  | openBracket => "LSQB"
  | closeBracket => "RSQB"
  | star => "STAR"
  | ampersand => "AMPERSAND"
  | dot => "DOT"
  | arrow => "__ANON_0"

def all : List Mark := [
  comma, openBrace, closeBrace, colon, openParen, closeParen, openBracket, closeBracket, star,
  ampersand, dot, arrow]

end Mark

inductive Terminal
  | keyword (k : Keyword)
  | mark (m : Mark)
  | name
  | number
  | finish
deriving DecidableEq, Inhabited

def Terminal.label : Terminal → String
  | keyword k => k.text.toUpper
  | mark m => m.label
  | name => "NAME"
  | number => "INT"
  | finish => "$END"

def Terminal.all : List Terminal :=
  Keyword.all.map keyword ++ Mark.all.map mark ++ [name, number]

def isLetter (c : Char) : Bool :=
  ('a' ≤ c && c ≤ 'z') || ('A' ≤ c && c ≤ 'Z') || c = '_'

def isDigit (c : Char) : Bool := '0' ≤ c && c ≤ '9'

def isBlank (c : Char) : Bool :=
  c = ' ' || c = '\t' || c = '\x0c' || c = '\r' || c = '\n'

/-- Names are ASCII. -/
def isNameChar (c : Char) : Bool := isLetter c || isDigit c

structure Token where
  terminal : Terminal
  text : String
  line : Nat
  column : Nat
deriving DecidableEq, Inhabited

namespace Token

def endColumn (t : Token) : Nat := t.column + t.text.length

def span (t : Token) : Span :=
  { line := some (t.line : Int), column := some (t.column : Int), endLine := some (t.line : Int),
    endColumn := some (t.endColumn : Int) }

end Token

def spanOf (first last : Token) : Span :=
  { line := some (first.line : Int), column := some (first.column : Int),
    endLine := some (last.line : Int), endColumn := some (last.endColumn : Int) }

structure Cursor where
  rest : List Char
  line : Nat := 1
  column : Nat := 1
deriving DecidableEq, Inhabited

/-- Passes blanks and comments. A comment goes from `#` to the end of its line. -/
def skipBlanks (comment : Bool) : List Char → Nat → Nat → Cursor
  | [], line, column => { rest := [], line := line, column := column }
  | c :: cs, line, column =>
    if c = '\n' then skipBlanks false cs (line + 1) 1
    else if comment || isBlank c then skipBlanks comment cs line (column + 1)
    else if c = '#' then skipBlanks true cs line (column + 1)
    else { rest := c :: cs, line := line, column := column }

def firstWith {α : Type} (text : α → String) (cs : List Char) (xs : List α) : Option α :=
  xs.find? fun x => (text x).toList.isPrefixOf cs

/-- The terminal at the beginning of a text and the number of its characters, read against a set of
expected terminals. -/
def scan? (expected : List Terminal) (cs : List Char) : Option (Terminal × Nat) :=
  match cs with
  | [] => none
  | c :: _ =>
    if isLetter c then
      if Terminal.name ∈ expected then
        let word := cs.takeWhile isNameChar
        match Keyword.ofText? (String.ofList word) with
        | some k =>
          if Terminal.keyword k ∈ expected then some (.keyword k, word.length)
          else some (.name, word.length)
        | none => some (.name, word.length)
      else
        (firstWith Keyword.text cs
          (Keyword.all.filter fun k => decide (Terminal.keyword k ∈ expected))).map
            fun k => (.keyword k, k.text.length)
    else if isDigit c then
      if Terminal.number ∈ expected then some (.number, (cs.takeWhile isDigit).length) else none
    else
      (firstWith Mark.text cs
        (Mark.all.filter fun m => decide (Terminal.mark m ∈ expected))).map
          fun m => (.mark m, m.text.length)

inductive ReadError
  | unexpected (token : Token)
  | noTerminal (c : Char) (line column : Nat)
deriving DecidableEq, Inhabited

namespace ReadError

def message : ReadError → String
  | unexpected t =>
    s!"Unexpected token Token('{t.terminal.label}', '{t.text}') at line {t.line}, column {t.column}."
  | noTerminal c line column =>
    s!"No terminal matches '{c}' in the current parser context, at line {line} col {column}"

def span : ReadError → Span
  | unexpected t => { line := some (t.line : Int), column := some (t.column : Int) }
  | noTerminal _ line column => { line := some (line : Int), column := some (column : Int) }

end ReadError

/-- The token that comes next, the token before it, and the text after it. -/
structure Head where
  token : Token
  last : Token
  rest : Cursor
deriving DecidableEq, Inhabited

def Cursor.cut (c : Cursor) (terminal : Terminal) (length : Nat) : Token × Cursor :=
  ({ terminal := terminal, text := String.ofList (c.rest.take length), line := c.line,
     column := c.column },
   { rest := c.rest.drop length, line := c.line, column := c.column + length })

/-- Reads the token at a cursor. The end of the text is a token at the place of the last one. -/
def readToken (expected : List Terminal) (last : Token) (cursor : Cursor) : Except ReadError Head :=
  let c := skipBlanks false cursor.rest cursor.line cursor.column
  match c.rest with
  | [] =>
    .ok { token := { terminal := .finish, text := "", line := last.line, column := last.column },
          last := last, rest := c }
  | first :: _ =>
    match scan? expected c.rest with
    | some (terminal, length) =>
      let (token, rest) := c.cut terminal length
      .ok { token := token, last := last, rest := rest }
    | none =>
      match scan? Terminal.all c.rest with
      | some (terminal, length) => .error (.unexpected (c.cut terminal length).1)
      | none => .error (.noTerminal first c.line c.column)

def Head.start (expected : List Terminal) (text : String) : Except ReadError Head :=
  readToken expected { terminal := .finish, text := "", line := 1, column := 1 }
    { rest := text.toList }

def Head.pass (h : Head) (expected : List Terminal) : Except ReadError Head :=
  readToken expected h.token h.rest

end MovePlan.Text
