import Mathlib.Data.List.Forall2
import Mathlib.Logic.Relation
import MovePlan.Proofs.Answer
import MovePlan.Proofs.Flow.Built

set_option autoImplicit false

/-!
# How a builder grows

Between the moments at which scopes are opened and closed, operations only add to a builder. Whatever
becomes the current block lies in every open scope, so what is added lies there, too.
-/
namespace MovePlan

/-- The block may become the current one. -/
structure Within (n : ℕ) (scopes : List OpenScope) (id : BlockId) : Prop where
  opened : Opened n id
  scope : ∀ o ∈ scopes, id ∈ o.blocks

/-- A temporary is consumed and has a type. Where it is asked for, what is consumed goes somewhere. -/
structure Site.Complete (strict : Prop) (s : Site) : Prop where
  temporary : s.binding = none → s.kind = .moveOut ∧ s.tempType.isSome = true
  target : strict → s.kind = .moveOut → s.target.isSome = true

/-- Scopes that stay open get more blocks and more locals. -/
def Widened (scopes scopes' : List OpenScope) : Prop :=
  List.Forall₂ (fun o o' => o.blocks ⊆ o'.blocks ∧ o.locals ⊆ o'.locals) scopes scopes'

theorem Widened.refl (scopes : List OpenScope) : Widened scopes scopes :=
  List.forall₂_same.2 fun _ _ => ⟨List.Subset.refl _, List.Subset.refl _⟩

theorem Widened.trans {x y z : List OpenScope} (h : Widened x y) (h' : Widened y z) : Widened x z := by
  induction h generalizing z with
  | nil =>
    cases h'
    exact .nil
  | cons ho _ ih =>
    cases h' with
    | cons ho' h' =>
      exact .cons ⟨List.Subset.trans ho.1 ho'.1, List.Subset.trans ho.2 ho'.2⟩ (ih h')

theorem Widened.tail {x y : List OpenScope} (h : Widened x y) : Widened x.tail y.tail := by
  cases h with
  | nil => exact .nil
  | cons _ h => exact h

theorem Within.mono {n k : ℕ} {scopes scopes' : List OpenScope} {id : BlockId} (h : Within n scopes id)
    (hk : n ≤ k) (hs : Widened scopes scopes') : Within k scopes' id := by
  refine ⟨h.opened.mono hk, fun o' ho' => ?_⟩
  obtain ⟨o, ho, hblocks, -⟩ := exists_of_forall₂_right hs ho'
  exact hblocks (h.scope o ho)

theorem Within.tail {n : ℕ} {scopes : List OpenScope} {id : BlockId} (h : Within n scopes id) :
    Within n scopes.tail id :=
  ⟨h.opened, fun o ho => h.scope o (List.mem_of_mem_tail ho)⟩

theorem opened_new (n : ℕ) : Opened (n + 1) (n : ℤ) :=
  ⟨Int.natCast_nonneg _, Int.ofNat_lt.2 (Nat.lt_succ_self _)⟩

namespace Builder

abbrev Holds (b : Builder) (id : BlockId) : Prop := Within b.nextBlock b.scopes id

/-- The current block lies in every open scope. -/
def Placed (b : Builder) : Prop := ∀ id : BlockId, b.current = some id → b.Holds id

/-- One addition to a builder. No scope is opened or closed. -/
inductive Primitive (strict : Prop) (b : Builder) : Builder → Prop
  | openBlock : Primitive strict b (b.openBlock none).2
  | label {name : String} (hfresh : lastWrite name b.labels = none) : Primitive strict b
      { (b.openBlock (some name)).2 with labels := b.labels ++ [(name, (b.nextBlock : ℤ))] }
  | addEdge {src dst : BlockId} {kind : EdgeKind} (hsrc : Opened b.nextBlock src)
      (hdst : Opened b.nextBlock dst) (hk : kind ≠ .jump) : Primitive strict b (b.addEdge src dst kind none)
  | moveTo {current : Option BlockId} (h : ∀ id : BlockId, current = some id → b.Holds id) :
      Primitive strict b (b.moveTo current)
  | access {id : BlockId} {s : Site} (hcurrent : b.current = some id) (hk : s.kind ≠ .decl)
      (hs : s.Complete strict) : Primitive strict b (b.putSite id s)
  | declare {id : BlockId} {name : String} (type : TypeId) (hcurrent : b.current = some id)
      (hfresh : b.function.binding? name = none) :
      Primitive strict b ((b.putLocal name type).putSite id (Build.unplaced .decl (some name)))
  | param {name : String} (type : TypeId) {mode : PassMode} {forwards : Bool}
      (hfresh : b.function.binding? name = none) (hforward : forwards = true → mode = .moveRef) :
      Primitive strict b (b.putParam name type mode forwards)
  | jump {src : BlockId} (name : String) (hsrc : Opened b.nextBlock src) :
      Primitive strict b { b with jumps := b.jumps ++ [(src, name)] }
  | nested {inner : Builder} (hinner : inner.Built) : Primitive strict b { b with function :=
      { b.function with nested := b.function.nested ++ [inner.finish.function] } }

def Grows (strict : Prop) : Builder → Builder → Prop := Relation.ReflTransGen (Primitive strict)

variable {strict : Prop} {b b' : Builder}

theorem Grows.refl (b : Builder) : Grows strict b b := Relation.ReflTransGen.refl

theorem Grows.trans {c : Builder} (h : Grows strict b b') (h' : Grows strict b' c) : Grows strict b c :=
  Relation.ReflTransGen.trans h h'

theorem Grows.step {c : Builder} (h : Grows strict b b') (h' : Primitive strict b' c) :
    Grows strict b c :=
  Relation.ReflTransGen.tail h h'

theorem Primitive.grows (h : Primitive strict b b') : Grows strict b b' := Relation.ReflTransGen.single h

theorem Primitive.built (h : Primitive strict b b') (hb : b.Built) : b'.Built := by
  cases h with
  | openBlock => exact hb.openBlock none
  | label hfresh => exact (hb.openBlock _).label (opened_new _) hfresh
  | addEdge hsrc hdst _ => exact hb.addEdge _ _ hsrc hdst
  | moveTo h => exact hb.moveTo fun id hid => (h id hid).opened
  | access hcurrent hk _ => exact hb.access hcurrent hk
  | declare type hcurrent hfresh => exact hb.declare type hcurrent hfresh
  | param type hfresh hforward => exact hb.param type hfresh hforward
  | jump name hsrc => exact hb.jump name hsrc
  | nested hinner => exact hb.nested hinner

theorem Primitive.nextBlock_le (h : Primitive strict b b') : b.nextBlock ≤ b'.nextBlock := by
  cases h with
  | openBlock => exact Nat.le_succ _
  | label _ => exact Nat.le_succ _
  | _ => exact le_rfl

theorem widened_openBlock (label : Option String) (b : Builder) :
    Widened b.scopes (b.openBlock label).2.scopes := by
  refine List.forall₂_map_right_iff.2 (List.forall₂_same.2 fun o _ => ⟨?_, List.Subset.refl _⟩)
  exact List.subset_append_left _ _

theorem holds_openBlock (label : Option String) (b : Builder) :
    (b.openBlock label).2.Holds (b.openBlock label).1 := by
  refine ⟨opened_new _, fun o ho => ?_⟩
  obtain ⟨o', -, rfl⟩ := List.mem_map.1 ho
  exact List.mem_append_right _ (List.mem_singleton_self _)

theorem widened_putLocal (name : String) (type : TypeId) (b : Builder) :
    Widened b.scopes (b.putLocal name type).scopes := by
  rw [putLocal]
  cases b.scopes with
  | nil => exact .nil
  | cons o rest => exact .cons ⟨List.Subset.refl _, List.subset_append_left _ _⟩ (Widened.refl rest)

theorem Primitive.widened (h : Primitive strict b b') : Widened b.scopes b'.scopes := by
  cases h with
  | openBlock => exact widened_openBlock none b
  | @label name _ => exact widened_openBlock (some name) b
  | declare type _ _ => exact widened_putLocal _ type b
  | _ => exact Widened.refl _

theorem Primitive.placed (h : Primitive strict b b') (hb : b.Placed) : b'.Placed := by
  intro id hid
  have hkeep : ∀ {id : BlockId}, b.Holds id → b'.Holds id :=
    fun hid => hid.mono h.nextBlock_le h.widened
  cases h with
  | moveTo hcurrent => exact hcurrent id hid
  | _ => exact hkeep (hb id hid)

theorem Grows.built (h : Grows strict b b') (hb : b.Built) : b'.Built := by
  induction h with
  | refl => exact hb
  | tail _ h ih => exact h.built ih

theorem Grows.placed (h : Grows strict b b') (hb : b.Placed) : b'.Placed := by
  induction h with
  | refl => exact hb
  | tail _ h ih => exact h.placed ih

theorem Grows.nextBlock_le (h : Grows strict b b') : b.nextBlock ≤ b'.nextBlock := by
  induction h with
  | refl => exact le_rfl
  | tail _ h ih => exact ih.trans h.nextBlock_le

theorem Grows.widened (h : Grows strict b b') : Widened b.scopes b'.scopes := by
  induction h with
  | refl => exact Widened.refl _
  | tail _ h ih => exact ih.trans h.widened

theorem Grows.holds (h : Grows strict b b') {id : BlockId} (hid : b.Holds id) : b'.Holds id :=
  hid.mono h.nextBlock_le h.widened

theorem Grows.opened (h : Grows strict b b') {id : BlockId} (hid : Opened b.nextBlock id) :
    Opened b'.nextBlock id :=
  hid.mono h.nextBlock_le

theorem placed_start (name : String) (captures : OrderedMap String TypeId) :
    (start name captures).Placed := by
  intro id hid
  obtain rfl : (0 : BlockId) = id := Option.some.inj hid
  exact ⟨⟨le_rfl, Int.one_pos⟩, fun o ho => by simp [start] at ho⟩

abbrev enter (first : BlockId) (b : Builder) : Builder := (b.pushScope first).moveTo (some first)

theorem Built.enter (hb : b.Built) {first : BlockId} (h : Opened b.nextBlock first) :
    (b.enter first).Built :=
  (hb.pushScope h).moveTo fun _ hid => Option.some.inj hid ▸ h

theorem placed_enter {first : BlockId} (h : b.Holds first) : (b.enter first).Placed := by
  intro id hid
  obtain rfl : first = id := Option.some.inj hid
  refine ⟨h.opened, fun o ho => ?_⟩
  rcases List.mem_cons.1 ho with rfl | ho
  · exact List.mem_singleton_self _
  · exact h.scope o ho

theorem Holds.popScope {id : BlockId} (h : b.Holds id) : b.popScope.Holds id := by
  rw [Holds, nextBlock_popScope, scopes_popScope]
  exact h.tail

theorem Placed.popScope (h : b.Placed) : b.popScope.Placed := by
  intro id hid
  rw [current_popScope] at hid
  exact Holds.popScope (h id hid)

end Builder

/-- From this builder on the operation only adds, and its answer fits what it has made. -/
def Builds {α : Type} (strict : Prop) (b : Builder) (good : α → Builder → Prop) (op : Extend α) : Prop :=
  b.Placed → b.Grows strict (op b).2 ∧ good (op b).1 (op b).2

/-- An operation that may fail, where only an answer has to fit. -/
def BuildsOrFails {α : Type} (strict : Prop) (b : Builder) (good : α → Builder → Prop) (op : Build α) :
    Prop :=
  Builds strict b (fun r b' => ∀ a, r = .ok a → good a b') op.run

abbrev anyAnswer {α : Type} (_ : α) (_ : Builder) : Prop := True

section
variable {α β : Type} {strict : Prop} {b : Builder} {good : α → Builder → Prop}
  {good' : β → Builder → Prop}

theorem Builds.bind {op : Extend α} {next : α → Extend β} (h : Builds strict b good op)
    (hnext : ∀ a b', b.Grows strict b' → good a b' → Builds strict b' good' (next a)) :
    Builds strict b good' (op >>= next) := by
  intro hb
  obtain ⟨hgrows, ha⟩ := h hb
  obtain ⟨hgrows', ha'⟩ := hnext _ _ hgrows ha (hgrows.placed hb)
  exact ⟨hgrows.trans hgrows', ha'⟩

theorem Builds.pure {a : α} (h : good a b) : Builds strict b good (pure a) :=
  fun _ => ⟨.refl b, h⟩

theorem Builds.get {next : Builder → Extend β} (h : Builds strict b good' (next b)) :
    Builds strict b good' (do next (← get)) := h

theorem Builds.modify {step : Builder → Builder} (h : b.Placed → b.Grows strict (step b)) :
    Builds strict b anyAnswer (modify step : Extend Unit) :=
  fun hb => ⟨h hb, trivial⟩

theorem BuildsOrFails.bind {op : Build α} {next : α → Build β} (h : BuildsOrFails strict b good op)
    (hnext : ∀ a b', b.Grows strict b' → good a b' → BuildsOrFails strict b' good' (next a)) :
    BuildsOrFails strict b good' (op >>= next) := by
  change Builds strict b _ (op.run >>= ExceptT.bindCont next)
  refine Builds.bind h fun r b' hgrows hr => ?_
  cases r with
  | ok a => exact hnext a b' hgrows (hr a rfl)
  | error e =>
    refine Builds.pure fun a ha => ?_
    cases ha

theorem BuildsOrFails.pure {a : α} (h : good a b) : BuildsOrFails strict b good (Pure.pure a) := by
  refine Builds.pure fun a' ha => ?_
  rw [Except.ok.injEq] at ha
  exact ha ▸ h

theorem BuildsOrFails.throw {e : BuildError} : BuildsOrFails strict b good (throw e : Build α) := by
  refine Builds.pure fun a ha => ?_
  cases ha

theorem BuildsOrFails.throw_bind {e : BuildError} {next : α → Build β} :
    BuildsOrFails strict b good' ((MonadExcept.throw e : Build α) >>= next) :=
  BuildsOrFails.throw

theorem BuildsOrFails.pure_bind {a : α} {next : α → Build β} (h : BuildsOrFails strict b good' (next a)) :
    BuildsOrFails strict b good' (Pure.pure a >>= next) := h

theorem BuildsOrFails.get {next : Builder → Build β} (h : BuildsOrFails strict b good' (next b)) :
    BuildsOrFails strict b good' (do next (← MonadState.get)) := h

theorem BuildsOrFails.lift {op : Extend α} (h : Builds strict b good op) :
    BuildsOrFails strict b good (liftM op : Build α) := by
  intro hb
  obtain ⟨hgrows, ha⟩ := h hb
  refine ⟨hgrows, fun a heq => ?_⟩
  have heq : (op b).1 = a := Except.ok.inj heq
  exact heq ▸ ha

end
end MovePlan
