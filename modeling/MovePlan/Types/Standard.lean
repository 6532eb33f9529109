import MovePlan.Types.Table

set_option autoImplicit false

namespace MovePlan.TypeTable

def standardDefs : List TypeDef := [
  { kind := .scalar, name := "Int" },
  { kind := .foreign, name := "Str",
    ops := { moveCtor := some {}, moveAssign := some {}, destructor := true } },
  { kind := .foreign, name := "Handle", ops := { destructor := true } },
  { kind := .foreign, name := "Buf", ops := { moveCtor := some {} } },
  { kind := .struct, name := "Pair", fields := [⟨"name", 2⟩, ⟨"count", 1⟩] },
  { kind := .struct, name := "Guarded", fields := [⟨"payload", 2⟩], ops := { destructor := true } },
  { kind := .pointer, name := pointerName "Pair", target := some 5 },
  { kind := .struct, name := "Holder", fields := [⟨"inner", 5⟩, ⟨"ptr", 7⟩] }]

def standard : TypeTable := { defs := standardDefs, intType := some 1 }

end MovePlan.TypeTable
