import MovePlan.Text.Token

set_option autoImplicit false

namespace MovePlan.Text.Expected
open Terminal

def words (ks : List Keyword) : List Terminal := ks.map keyword

def item : List Terminal := words [.type, .struct, .fn]

def aName : List Terminal := [name]

def aNumber : List Terminal := [number]

def only (m : Mark) : List Terminal := [mark m]

def typeKind : List Terminal := words [.foreign, .scalar]

def attribute_ : List Terminal := words [.moveCtor, .moveAssign, .drop]

def afterKind : List Terminal := attribute_ ++ item

def afterStructName : List Terminal := attribute_ ++ [mark .openBrace]

def afterAttribute : List Terminal := attribute_ ++ item ++ [mark .openBrace]

def afterMoveWord : List Terminal := afterAttribute ++ [mark .openParen]

def canFail : List Terminal := words [.canFail]

def field : List Terminal := [name, mark .closeBrace]

def type : List Terminal := [name, mark .star, mark .ampersand]

def afterAmpersand : List Terminal := words [.mutable] ++ type

def paramType : List Terminal := words [.value, .moveRef, .ref] ++ type

def param : List Terminal := [name, mark .closeParen]

def nameListRest : List Terminal := [mark .comma, mark .closeParen]

def bodyOrCaptures : List Terminal := words [.captures] ++ [mark .openBrace]

def member : List Terminal := words [.block, .scope, .fn] ++ [mark .closeBrace]

def afterFunction : List Terminal := words [.type, .struct] ++ member

def blockLabel : List Terminal := [name, mark .colon]

/-- A statement, or what can follow a block. -/
def statement : List Terminal :=
  words [.decl, .read, .write, .addr, .move, .goto, .onTrue, .onFalse, .back, .skip, .jump, .ret] ++
    member

def afterType : List Terminal :=
  words [.forward] ++ [mark .comma, mark .closeParen, mark .arrow] ++ statement

def afterPlaceName : List Terminal := [mark .dot, mark .arrow] ++ statement

def moveOperand : List Terminal := words [.explicit, .fwd, .temp] ++ [name]

def moveOperandRest : List Terminal := words [.explicit, .fwd] ++ [name]

def target : List Terminal := words [.call, .result, .assign]

def targetFlag : List Terminal :=
  words [.value, .moveRef, .ref, .mayFail, .forward] ++ statement

def scopeNumberRest : List Terminal := [number] ++ member

end MovePlan.Text.Expected
