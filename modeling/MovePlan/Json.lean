set_option autoImplicit false

namespace MovePlan

inductive Json
  | null
  | bool (b : Bool)
  | int (n : Int)
  | str (s : String)
  | arr (xs : List Json)
  | obj (fields : List (String × Json))
deriving Inhabited

namespace Json

def ofOption {α : Type} (f : α → Json) : Option α → Json
  | none => null
  | some a => f a

def ofList {α : Type} (f : α → Json) (xs : List α) : Json := arr (xs.map f)

def hexDigit (n : Nat) : Char := "0123456789abcdef".toList.getD (n % 16) '0'

def hex4 (n : Nat) : List Char :=
  [hexDigit (n / 4096), hexDigit (n / 256), hexDigit (n / 16), hexDigit n]

def unitEscape (n : Nat) : List Char := '\\' :: 'u' :: hex4 n

/-- A character as it stands between quotes. -/
def escape (c : Char) : List Char :=
  if c = '"' then ['\\', '"']
  else if c = '\\' then ['\\', '\\']
  else if c = '\n' then ['\\', 'n']
  else if c = '\r' then ['\\', 'r']
  else if c = '\t' then ['\\', 't']
  else if c = '\x0c' then ['\\', 'f']
  else if c = '\x08' then ['\\', 'b']
  else if 32 ≤ c.toNat ∧ c.toNat < 127 then [c]
  else if c.toNat < 65536 then unitEscape c.toNat
  else
    let rest := c.toNat - 65536
    unitEscape (55296 + rest / 1024) ++ unitEscape (56320 + rest % 1024)

def quote (s : String) : String := String.ofList ('"' :: s.toList.flatMap escape ++ ['"'])

mutual

def render : Json → String
  | null => "null"
  | bool b => if b then "true" else "false"
  | int n => s!"{n}"
  | str s => quote s
  | arr xs => "[" ++ ", ".intercalate (renderAll xs) ++ "]"
  | obj fields => "\x7b" ++ ", ".intercalate (renderFields fields) ++ "\x7d"

def renderAll : List Json → List String
  | [] => []
  | x :: xs => render x :: renderAll xs

def renderFields : List (String × Json) → List String
  | [] => []
  | (k, x) :: xs => (quote k ++ ": " ++ render x) :: renderFields xs

end

end Json
end MovePlan
