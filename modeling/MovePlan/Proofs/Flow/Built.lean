import Mathlib.Algebra.Order.Group.Int
import MovePlan.Flow.Builder
import MovePlan.Proofs.Flow.Declared

set_option autoImplicit false

namespace MovePlan

/-- The block is one of the first `n` that a builder opens. -/
def Opened (n : ℕ) (id : BlockId) : Prop := 0 ≤ id ∧ id < (n : Int)

theorem Opened.mono {n k : ℕ} {id : BlockId} (h : Opened n id) (hk : n ≤ k) : Opened k id :=
  ⟨h.1, lt_of_lt_of_le h.2 (by exact_mod_cast hk)⟩

namespace Builder

def placed (id : BlockId) (s : Site) (b : Builder) : Site :=
  { s with id := b.nextSite, block := id, index := ((b.function.sitesAt id).length : Int) }

def putSite (id : BlockId) (s : Site) (b : Builder) : Builder :=
  { b.mapBlock id (fun blk => { blk with sites := blk.sites ++ [b.placed id s] }) with
    nextSite := b.nextSite + 1 }

/-- A local that still lacks its declaration. -/
def putLocal (name : String) (type : TypeId) (b : Builder) : Builder :=
  { b with
    function := { b.function with bindings := b.function.bindings.put name { name := name, type := type } }
    scopes := match b.scopes with
      | [] => []
      | s :: rest => { s with locals := s.locals ++ [name] } :: rest }

def putParam (name : String) (type : TypeId) (mode : PassMode) (forwards : Bool) (b : Builder) :
    Builder :=
  let f := b.function
  { b with function := { f with
      bindings := f.bindings.put name { name := name, type := type, isParam := true, mode := mode }
      params := f.params ++ [name]
      forwards := if forwards then f.forwards ++ [(f.params.length : Int)] else f.forwards } }

/-- What primitive steps make of an empty function. -/
inductive Built : Builder → Prop
  | start (name : String) (captures : OrderedMap String TypeId) : Built (start name captures)
  | openBlock {b : Builder} (label : Option String) (h : Built b) : Built (b.openBlock label).2
  | addEdge {b : Builder} {src dst : BlockId} (kind : EdgeKind) (label : Option String) (h : Built b)
      (hsrc : Opened b.nextBlock src) (hdst : Opened b.nextBlock dst) :
      Built (b.addEdge src dst kind label)
  | moveTo {b : Builder} {current : Option BlockId} (h : Built b)
      (hcurrent : ∀ id, current = some id → Opened b.nextBlock id) : Built (b.moveTo current)
  | access {b : Builder} {id : BlockId} {s : Site} (h : Built b) (hcurrent : b.current = some id)
      (hk : s.kind ≠ .decl) : Built (b.putSite id s)
  | declare {b : Builder} {id : BlockId} {name : String} (type : TypeId) (h : Built b)
      (hcurrent : b.current = some id) (hfresh : b.function.binding? name = none) :
      Built ((b.putLocal name type).putSite id (Build.unplaced .decl (some name)))
  | param {b : Builder} {name : String} (type : TypeId) {mode : PassMode} {forwards : Bool}
      (h : Built b) (hfresh : b.function.binding? name = none)
      (hforward : forwards = true → mode = .moveRef) : Built (b.putParam name type mode forwards)
  | pushScope {b : Builder} {first : BlockId} (h : Built b) (hfirst : Opened b.nextBlock first) :
      Built (b.pushScope first)
  | popScope {b : Builder} (h : Built b) : Built b.popScope
  | label {b : Builder} {name : String} {id : BlockId} (h : Built b) (hid : Opened b.nextBlock id)
      (hfresh : lastWrite name b.labels = none) :
      Built { b with labels := b.labels ++ [(name, id)] }
  | jump {b : Builder} {src : BlockId} (name : String) (h : Built b)
      (hsrc : Opened b.nextBlock src) : Built { b with jumps := b.jumps ++ [(src, name)] }
  | nested {b inner : Builder} (h : Built b) (hinner : Built inner) :
      Built { b with function :=
        { b.function with nested := b.function.nested ++ [inner.finish.function] } }
  | finish {b : Builder} (h : Built b) : Built b.finish

theorem drawJumps_induction {P : Builder → Prop}
    (hedge : ∀ b src dst label, P b → P (b.addEdge src dst .jump label)) {b : Builder} (h : P b)
    (dangling : BlockId) (jumps : List (BlockId × String)) : P (b.drawJumps dangling jumps) := by
  induction jumps generalizing b dangling with
  | nil => exact h
  | cons j jumps ih =>
    rw [drawJumps]
    split
    · exact ih (hedge _ _ _ _ h) _
    · exact ih (hedge _ _ _ _ h) _

theorem nextBlock_drawJumps (b : Builder) (dangling : BlockId) (jumps : List (BlockId × String)) :
    (b.drawJumps dangling jumps).nextBlock = b.nextBlock :=
  drawJumps_induction (P := fun x => x.nextBlock = b.nextBlock) (fun _ _ _ _ h => h) rfl _ _

theorem current_drawJumps (b : Builder) (dangling : BlockId) (jumps : List (BlockId × String)) :
    (b.drawJumps dangling jumps).current = b.current :=
  drawJumps_induction (P := fun x => x.current = b.current) (fun _ _ _ _ h => h) rfl _ _

theorem nextBlock_finish (b : Builder) : b.finish.nextBlock = b.nextBlock :=
  nextBlock_drawJumps b _ _

theorem current_finish (b : Builder) : b.finish.current = b.current :=
  current_drawJumps b _ _

theorem nextBlock_popScope (b : Builder) : b.popScope.nextBlock = b.nextBlock := by
  rw [popScope]
  split <;> rfl

theorem current_popScope (b : Builder) : b.popScope.current = b.current := by
  rw [popScope]
  split <;> rfl

theorem scopes_popScope (b : Builder) : b.popScope.scopes = b.scopes.tail := by
  rw [popScope]
  split
  next hs => rw [hs, List.tail_nil]
  next hs => rw [hs, List.tail_cons]

theorem Built.opened_current {b : Builder} (h : b.Built) {id : BlockId} (hid : b.current = some id) :
    Opened b.nextBlock id := by
  induction h with
  | start name captures =>
    rw [Builder.start, Option.some.injEq] at hid
    subst hid
    exact ⟨le_rfl, by simp [Builder.start]⟩
  | openBlock label _ ih => exact (ih hid).mono (Nat.le_succ _)
  | addEdge kind label _ _ _ ih => exact ih hid
  | moveTo _ hcurrent _ => exact hcurrent id hid
  | access _ _ _ ih => exact ih hid
  | declare type _ _ _ ih => exact ih hid
  | param type _ _ _ ih => exact ih hid
  | pushScope _ _ ih => exact ih hid
  | popScope _ ih =>
    rw [current_popScope] at hid
    rw [nextBlock_popScope]
    exact ih hid
  | label _ _ _ ih => exact ih hid
  | jump name _ _ ih => exact ih hid
  | nested _ _ ih _ => exact ih hid
  | finish _ ih =>
    rw [current_finish] at hid
    rw [nextBlock_finish]
    exact ih hid

end Builder

end MovePlan
