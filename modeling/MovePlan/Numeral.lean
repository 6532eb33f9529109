set_option autoImplicit false

namespace MovePlan

structure Numeral where
  digits : List (Fin 10)
deriving DecidableEq, Inhabited

namespace Numeral

def maxLength : Nat := 4300

def ofText (text : String) : Numeral :=
  ⟨text.toList.map fun c => ⟨(c.toNat - 48) % 10, Nat.mod_lt _ (by decide)⟩⟩

def length (n : Numeral) : Nat := n.digits.length

def value (n : Numeral) : Nat := n.digits.foldl (fun v d => v * 10 + d.val) 0

def isTooLong (n : Numeral) : Bool := decide (maxLength < n.length)

def value? (n : Numeral) : Option Nat := if n.isTooLong then none else some n.value

def isPrintable (n : Int) : Bool := decide (n.natAbs < Nat.pow 10 maxLength)

/-- An integer as text, unless it has too many digits. -/
def text? (n : Int) : Option String := if isPrintable n then some s!"{n}" else none

def listText? (ns : List Int) : Option String :=
  (ns.mapM text?).map fun texts => "[" ++ ", ".intercalate texts ++ "]"

/-- What is said in place of a text for which a number has too many digits. -/
def refusal : String := s!"a number has more than {maxLength} digits"

end Numeral
end MovePlan
