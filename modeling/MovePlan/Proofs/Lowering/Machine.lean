import Mathlib.Logic.Relation
import MovePlan.Lowering.Text
import MovePlan.Run

set_option autoImplicit false

/-!
# Running code

The machine keeps the instructions of a block that are still to be run. Slots and flags are cells, calls
are recorded, and `movec.choose` answers for a block as the choices of a run do. What no rule covers has
no step: a flag that is read before it was stored, a call on something that is no slot, a block that just
ends.
-/
namespace MovePlan

abbrev Code := List (ValueNo × BlockNo × Instr)

namespace Code

def instrsAt (code : Code) (b : BlockNo) : List (ValueNo × Instr) :=
  (code.filter (·.2.1 = b)).map fun x => (x.1, x.2.2)

end Code

/-- What a value number stands for. -/
inductive Register
  | slot
  /-- A flag; it holds no bit at first. -/
  | flag (bit : Option Bool)
  | bit (b : Bool)
  | answer (edge : Int)
deriving DecidableEq, Inhabited

structure Call where
  callee : String
  args : List Operand
deriving DecidableEq, Inhabited

/-- A destructor is called on a slot; all other calls are handed numbers. -/
def Call.onSlot (c : Call) : Bool :=
  match c.args with
  | [.slot _] => true
  | _ => false

structure Machine where
  rest : List (ValueNo × Instr) := []
  choices : Choices
  registers : OrderedMap ValueNo Register := .empty
  /-- The blocks that have been entered, the first one first. -/
  blocks : List BlockNo := []
  calls : List Call := []
deriving Inhabited

namespace Machine

def set (v : ValueNo) (x : Register) (s : Machine) : Machine :=
  { s with registers := s.registers.put v x }

theorem get?_set_self (s : Machine) (v : ValueNo) (x : Register) :
    (s.set v x).registers.get? v = some x := by
  unfold set
  rw [OrderedMap.get?_put, if_pos rfl]

theorem get?_set_of_ne (s : Machine) {v k : ValueNo} (hne : k ≠ v) (x : Register) :
    (s.set v x).registers.get? k = s.registers.get? k := by
  unfold set
  rw [OrderedMap.get?_put, if_neg hne]

def enter (code : Code) (b : BlockNo) (s : Machine) : Machine :=
  { s with rest := code.instrsAt b, blocks := s.blocks ++ [b] }

def hasOperand (s : Machine) : Operand → Bool
  | .number _ => true
  | .slot v => s.registers.get? v = some .slot

def record (callee : String) (args : List Operand) (s : Machine) : Machine :=
  { s with calls := s.calls ++ [{ callee := callee, args := args }] }

/-- A call of `movec.choose` is answered by the choice for the block that it names. -/
def answer (v : ValueNo) (callee : String) (args : List Operand) (s : Machine) : Option Machine :=
  match args with
  | [.number id] =>
    if callee = "movec.choose" then
      (s.choices.choiceAt id).edge?.map fun edge =>
        { s.set v (.answer edge) with choices := s.choices.visit id }
    else some s
  | _ => some s

/-- The cases of a switch are numbered from one. -/
def switchTarget (edge : Int) (default : BlockNo) (cases : List BlockNo) : BlockNo :=
  if 0 < edge then (cases[(edge - 1).toNat]?).getD default else default

/-- The machine after its next instruction; nothing at a return. -/
def step (code : Code) (s : Machine) : Option Machine :=
  match s.rest with
  | [] => none
  | (v, i) :: rest =>
    let s : Machine := { s with rest := rest }
    match i with
    | .allocSlot => some (s.set v .slot)
    | .allocFlag => some (s.set v (.flag none))
    | .store bit flag =>
      match s.registers.get? flag with
      | some (.flag _) => some (s.set flag (.flag (some bit)))
      | _ => none
    | .load flag =>
      match s.registers.get? flag with
      | some (.flag (some bit)) => some (s.set v (.bit bit))
      | _ => none
    | .call callee _ args =>
      if args.all s.hasOperand then (s.record callee args).answer v callee args else none
    | .branch b => some (s.enter code b)
    | .branchIf cond ifTrue ifFalse =>
      match s.registers.get? cond with
      | some (.bit b) => some (s.enter code (if b then ifTrue else ifFalse))
      | _ => none
    | .switch on _ default cases =>
      match s.registers.get? on with
      | some (.answer edge) => some (s.enter code (switchTarget edge default cases))
      | _ => none
    | .ret => none

def atReturn (s : Machine) : Bool :=
  match s.rest with
  | (_, .ret) :: _ => true
  | _ => false

def start (code : Code) (choices : Choices) : Machine :=
  ({ choices := choices } : Machine).enter code 0

def execute (code : Code) : Nat → Machine → Option Machine
  | 0, _ => none
  | fuel + 1, s => if s.atReturn then some s else (s.step code).bind (execute code fuel)

def Reaches (code : Code) : Machine → Machine → Prop :=
  Relation.ReflTransGen fun s s' => s.step code = some s'

namespace Reaches
variable {code : Code} {s s' s'' : Machine}

theorem refl (s : Machine) : Reaches code s s := Relation.ReflTransGen.refl

theorem trans (h : Reaches code s s') (h' : Reaches code s' s'') : Reaches code s s'' :=
  Relation.ReflTransGen.trans h h'

theorem single (h : s.step code = some s') : Reaches code s s' := Relation.ReflTransGen.single h

end Reaches

section
variable {code : Code} {s : Machine} {v c : ValueNo} {rest : List (ValueNo × Instr)}

theorem step_allocSlot (h : s.rest = (v, .allocSlot) :: rest) :
    s.step code = some (({ s with rest := rest } : Machine).set v .slot) := by
  unfold step
  rw [h]

theorem step_allocFlag (h : s.rest = (v, .allocFlag) :: rest) :
    s.step code = some (({ s with rest := rest } : Machine).set v (.flag none)) := by
  unfold step
  rw [h]

theorem step_store {bit : Bool} {old : Option Bool} (h : s.rest = (v, .store bit c) :: rest)
    (hc : s.registers.get? c = some (.flag old)) :
    s.step code = some (({ s with rest := rest } : Machine).set c (.flag (some bit))) := by
  unfold step
  simp only [h, hc]

theorem step_load {bit : Bool} (h : s.rest = (v, .load c) :: rest)
    (hc : s.registers.get? c = some (.flag (some bit))) :
    s.step code = some (({ s with rest := rest } : Machine).set v (.bit bit)) := by
  unfold step
  simp only [h, hc]

theorem step_call {callee : String} {result : IrType} {args : List Operand}
    (h : s.rest = (v, .call callee result args) :: rest) (hargs : args.all s.hasOperand = true)
    (hquiet : ∀ id, args = [.number id] → callee ≠ "movec.choose") :
    s.step code = some (({ s with rest := rest } : Machine).record callee args) := by
  have hhas : args.all ({ s with rest := rest } : Machine).hasOperand = true := hargs
  unfold step
  simp only [h, hhas, ↓reduceIte]
  unfold answer
  split
  next id => rw [if_neg (hquiet id rfl)]
  next => rfl

theorem step_choose {result : IrType} {id : BlockId} {edge : Int}
    (h : s.rest = (v, .call "movec.choose" result [.number id]) :: rest)
    (hedge : (s.choices.choiceAt id).edge? = some edge) :
    s.step code = some { (({ s with rest := rest } : Machine).record "movec.choose" [.number id]).set v
      (.answer edge) with choices := s.choices.visit id } := by
  have hchoice : ((({ s with rest := rest } : Machine).record "movec.choose"
      [.number id]).choices.choiceAt id).edge? = some edge := hedge
  unfold step
  simp only [h, List.all_cons, hasOperand, List.all_nil, Bool.and_self, ↓reduceIte]
  unfold answer
  simp only [↓reduceIte, hchoice, Option.map_some]
  rfl

theorem step_branch {b : BlockNo} (h : s.rest = (v, .branch b) :: rest) :
    s.step code = some (({ s with rest := rest } : Machine).enter code b) := by
  unfold step
  rw [h]

theorem step_branchIf {bit : Bool} {ifTrue ifFalse : BlockNo}
    (h : s.rest = (v, .branchIf c ifTrue ifFalse) :: rest) (hc : s.registers.get? c = some (.bit bit)) :
    s.step code =
      some (({ s with rest := rest } : Machine).enter code (if bit then ifTrue else ifFalse)) := by
  unfold step
  simp only [h, hc]

theorem step_switch {type : IrType} {default : BlockNo} {cases : List BlockNo} {edge : Int}
    (h : s.rest = (v, .switch c type default cases) :: rest)
    (hc : s.registers.get? c = some (.answer edge)) :
    s.step code =
      some (({ s with rest := rest } : Machine).enter code (switchTarget edge default cases)) := by
  unfold step
  simp only [h, hc]

end

theorem switchTarget_eq {default : BlockNo} {cases : List BlockNo} {i : Nat} {b : BlockNo}
    (h : (default :: cases)[i]? = some b) : switchTarget (i : Int) default cases = b := by
  unfold switchTarget
  cases i with
  | zero =>
    rw [List.getElem?_cons_zero, Option.some.injEq] at h
    rw [if_neg (by omega), h]
  | succ i =>
    have hindex : (((i + 1 : Nat) : Int) - 1).toNat = i := by omega
    rw [List.getElem?_cons_succ] at h
    rw [if_pos (by omega), hindex, h, Option.getD_some]

theorem step_of_atReturn {code : Code} {s : Machine} (h : s.atReturn = true) : s.step code = none := by
  unfold atReturn at h
  split at h
  next heq =>
    unfold step
    rw [heq]
  next => cases h

theorem execute_of_reaches {code : Code} {s s' : Machine} (h : Reaches code s s')
    (hreturn : s'.atReturn = true) : ∃ n, ∀ fuel ≥ n, execute code fuel s = some s' := by
  -- the fuel counts the steps from the front, so the induction peels off the first one
  induction h using Relation.ReflTransGen.head_induction_on with
  | refl =>
    refine ⟨1, fun fuel hfuel => ?_⟩
    obtain ⟨k, rfl⟩ : ∃ k, fuel = k + 1 := ⟨fuel - 1, by omega⟩
    unfold execute
    rw [if_pos hreturn]
  | @head a b hstep _ ih =>
    obtain ⟨n, ih⟩ := ih
    refine ⟨n + 1, fun fuel hfuel => ?_⟩
    obtain ⟨k, rfl⟩ : ∃ k, fuel = k + 1 := ⟨fuel - 1, by omega⟩
    have hnot : ¬ a.atReturn = true := by
      intro hret
      rw [step_of_atReturn hret] at hstep
      cases hstep
    unfold execute
    rw [if_neg hnot, hstep]
    apply ih
    omega

end Machine
end MovePlan
