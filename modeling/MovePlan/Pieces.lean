set_option autoImplicit false

namespace MovePlan

def piecesFrom (separator : Char) : List Char → List Char → List String
  | [], piece => [String.ofList piece.reverse]
  | c :: cs, piece =>
    if c = separator then String.ofList piece.reverse :: piecesFrom separator cs []
    else piecesFrom separator cs (c :: piece)

/-- The pieces of a text between the separators; there is one more piece than separators. -/
def pieces (separator : Char) (text : String) : List String := piecesFrom separator text.toList []

end MovePlan
