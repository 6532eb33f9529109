import MovePlan.CommandLine.Response

set_option autoImplicit false

namespace MovePlan.CommandLine

def usage : String :=
  "usage: moveplan [-h] [--json] [--emit-ir PATH] [--assign-order ORDER] [--last-use-mode MODE] " ++
    "[--inline-forwarding] [--jobs N] [--trace] FILE..."

def readSource (file : FileName) : IO (FileName × Option String) := do
  try
    return (file, some (← IO.FS.readFile file.text))
  catch _ =>
    return (file, none)

def answer (q : Request) : IO UInt32 := do
  let texts ← q.sources.mapM readSource
  match q.respond fun file => (texts.lookup file).join with
  | .error e =>
    IO.eprintln e.message
    return 1
  | .ok r =>
    match r.code with
    | some (file, text) => IO.FS.writeFile file.text text
    | none => pure ()
    IO.eprint (textOfLines r.errors)
    IO.print (textOfLines r.output)
    return r.exitCode.toUInt32

end MovePlan.CommandLine

open MovePlan.CommandLine in
def main (args : List String) : IO UInt32 :=
  match Request.ofArguments args with
  | .ok q => answer q
  | .error r => do
    IO.eprintln usage
    return r.exitCode.toUInt32
