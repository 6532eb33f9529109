set_option autoImplicit false

namespace MovePlan

inductive LastUseMode
  /-- Liveness over all paths. -/
  | fixpoint
  /-- Only the final access of a binding whose accesses all stand in one block off every cycle. -/
  | blockLocal
deriving DecidableEq, Inhabited

namespace LastUseMode

def label : LastUseMode → String
  | fixpoint => "fixpoint"
  | blockLocal => "block-local"

def ofLabel? (l : String) : Option LastUseMode :=
  [fixpoint, blockLocal].find? (·.label = l)

end LastUseMode

inductive AssignOrder
  | destroyThenConstruct
  | moveAssign
deriving DecidableEq, Inhabited

namespace AssignOrder

def label : AssignOrder → String
  | destroyThenConstruct => "destroy-then-construct"
  | moveAssign => "move-assign"

def ofLabel? (l : String) : Option AssignOrder :=
  [destroyThenConstruct, moveAssign].find? (·.label = l)

end AssignOrder

structure Settings where
  lastUseMode : LastUseMode := .fixpoint
  assignOrder : AssignOrder := .destroyThenConstruct
  /-- The consumer of a forwarded reference may move at the last use of the first binding. -/
  inlineForwarding : Bool := false
deriving DecidableEq, Inhabited

end MovePlan
