import MovePlan.Pieces

set_option autoImplicit false

namespace MovePlan.CommandLine

structure FileName where
  /-- One slash or two for an absolute path, else empty. -/
  root : String
  parts : List String
deriving DecidableEq, Inhabited

namespace FileName

def rootOf (text : List Char) : String :=
  match text with
  | '/' :: '/' :: '/' :: _ => "/"
  | '/' :: '/' :: _ => "//"
  | '/' :: _ => "/"
  | _ => ""

def ofText (text : String) : FileName :=
  { root := rootOf text.toList
    parts := (pieces '/' text).filter fun p => p ≠ "" && p ≠ "." }

def text (f : FileName) : String :=
  if f.root = "" ∧ f.parts = [] then "." else f.root ++ "/".intercalate f.parts

def last (f : FileName) : String := f.parts.getLast?.getD ""

/-- The last part without its extension. A dot at either end begins no extension. -/
def stem (f : FileName) : String :=
  let segments := pieces '.' f.last
  let front := ".".intercalate segments.dropLast
  if front = "" ∨ segments.getLast? = some "" then f.last else front

end FileName
end MovePlan.CommandLine
