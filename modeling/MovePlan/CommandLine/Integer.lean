import MovePlan.Numeral

set_option autoImplicit false

namespace MovePlan.CommandLine

/-- The code points of the characters with the decimal value zero (Unicode 14). The nine characters
after each have the values one to nine. -/
def zeroDigits : List Nat :=
  [0x30, 0x660, 0x6f0, 0x7c0, 0x966, 0x9e6, 0xa66, 0xae6, 0xb66, 0xbe6, 0xc66, 0xce6, 0xd66, 0xde6,
   0xe50, 0xed0, 0xf20, 0x1040, 0x1090, 0x17e0, 0x1810, 0x1946, 0x19d0, 0x1a80, 0x1a90, 0x1b50,
   0x1bb0, 0x1c40, 0x1c50, 0xa620, 0xa8d0, 0xa900, 0xa9d0, 0xa9f0, 0xaa50, 0xabf0, 0xff10, 0x104a0,
   0x10d30, 0x11066, 0x110f0, 0x11136, 0x111d0, 0x112f0, 0x11450, 0x114d0, 0x11650, 0x116c0,
   0x11730, 0x118e0, 0x11950, 0x11c50, 0x11d50, 0x11da0, 0x16a60, 0x16ac0, 0x16b50, 0x1d7ce,
   0x1d7d8, 0x1d7e2, 0x1d7ec, 0x1d7f6, 0x1e140, 0x1e2f0, 0x1e950, 0x1fbf0]

def digitValue? (c : Char) : Option (Fin 10) :=
  (zeroDigits.find? fun z => z ≤ c.toNat && c.toNat < z + 10).map fun z => Fin.ofNat 10 (c.toNat - z)

def isBlank (c : Char) : Bool :=
  let n := c.toNat
  (9 ≤ n && n ≤ 13) || (0x2000 ≤ n && n ≤ 0x200a) ||
    [0x20, 0x85, 0xa0, 0x1680, 0x2028, 0x2029, 0x202f, 0x205f, 0x3000].contains n

def readDigits : List Char → Option (List (Fin 10))
  | [] => some []
  | '_' :: c :: rest => do return (← digitValue? c) :: (← readDigits rest)
  | c :: rest => do return (← digitValue? c) :: (← readDigits rest)

def readNatural : List Char → Option Nat
  | [] => none
  | c :: rest => do Numeral.value? ⟨(← digitValue? c) :: (← readDigits rest)⟩

def trimBlanks (cs : List Char) : List Char :=
  ((cs.dropWhile isBlank).reverse.dropWhile isBlank).reverse

def readInteger (text : String) : Option Int :=
  match trimBlanks text.toList with
  | '-' :: digits => (readNatural digits).map fun n => -(n : Int)
  | '+' :: digits => (readNatural digits).map fun n => (n : Int)
  | digits => (readNatural digits).map fun n => (n : Int)

end MovePlan.CommandLine
