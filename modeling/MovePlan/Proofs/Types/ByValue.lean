import Mathlib.Logic.Relation
import MovePlan.Proofs.Types.Registered

set_option autoImplicit false

/-!
# What a type holds by value

A struct holds the types of its fields, and a type reaches whatever can be found by going on from
there. What a type owes or offers is said of the types that it reaches, with no mention of the order
in which a table was filled.
-/
namespace MovePlan

namespace TypeDef

/-- The kinds of types whose author may supply operations. -/
def IsAuthored (d : TypeDef) : Prop := d.kind = .struct ∨ d.kind = .foreign

/-- The author supplies one of the move operations at least. -/
def IsUserMovable (d : TypeDef) : Prop :=
  d.IsAuthored ∧ (d.ops.moveCtor.isSome = true ∨ d.ops.moveAssign.isSome = true)

/-- The author supplies a move operation that can fail. -/
def MayFail (d : TypeDef) : Prop :=
  d.IsAuthored ∧ ∃ m, (d.ops.moveCtor = some m ∨ d.ops.moveAssign = some m) ∧ m.canFail = true

def HasDestructor (d : TypeDef) : Prop := d.ops.destructor = true

structure FitsKind (d : TypeDef) : Prop where
  fields : d.kind ≠ .struct → d.fields = []
  ops : ¬ d.IsAuthored → d.ops = {}

end TypeDef

namespace TypeTable
variable {t t' : TypeTable}

/-- The type `a` is a struct with a field of type `b`. -/
def Holds (t : TypeTable) (a b : TypeId) : Prop :=
  ∃ d, t.get? a = some d ∧ d.kind = .struct ∧ ∃ f ∈ d.fields, f.type = b

/-- In zero or more steps from struct to field. -/
abbrev Reaches (t : TypeTable) : TypeId → TypeId → Prop := Relation.ReflTransGen t.Holds

def OnCycle (t : TypeTable) (id : TypeId) : Prop := Relation.TransGen t.Holds id id

def ReachesSome (t : TypeTable) (p : TypeDef → Prop) (id : TypeId) : Prop :=
  ∃ u d, t.Reaches id u ∧ t.get? u = some d ∧ p d

def Faulty (t : TypeTable) (id : TypeId) : Prop :=
  t.ReachesSome TypeDef.MayFail id ∨ ∃ u, t.Reaches id u ∧ t.OnCycle u

def Movable (t : TypeTable) : TypeId → Prop := t.ReachesSome TypeDef.IsUserMovable

def Owning (t : TypeTable) : TypeId → Prop := t.ReachesSome TypeDef.HasDestructor

theorem holds_iff {id b : TypeId} {d : TypeDef} (hd : t.get? id = some d) :
    t.Holds id b ↔ d.kind = .struct ∧ ∃ f ∈ d.fields, f.type = b := by
  constructor
  · rintro ⟨x, hx, h⟩
    have hxd : x = d := by simpa [hx] using hd
    rwa [hxd] at h
  · intro h
    exact ⟨d, hd, h⟩

theorem reachesSome_iff {p : TypeDef → Prop} {id : TypeId} {d : TypeDef} (hd : t.get? id = some d) :
    t.ReachesSome p id ↔ p d ∨ d.kind = .struct ∧ ∃ f ∈ d.fields, t.ReachesSome p f.type := by
  constructor
  · rintro ⟨u, x, hu, hx, hp⟩
    cases hu.cases_head with
    | inl h =>
      have hxd : x = d := by simpa [← h, hd] using hx.symm
      exact .inl (hxd ▸ hp)
    | inr h =>
      obtain ⟨b, hb, hbu⟩ := h
      obtain ⟨hk, f, hf, hfb⟩ := (holds_iff hd).1 hb
      exact .inr ⟨hk, f, hf, u, x, hfb ▸ hbu, hx, hp⟩
  · intro h
    cases h with
    | inl hp => exact ⟨id, d, .refl, hd, hp⟩
    | inr h =>
      obtain ⟨hk, f, hf, u, x, hu, hx, hp⟩ := h
      exact ⟨u, x, .head ⟨d, hd, hk, f, hf, rfl⟩ hu, hx, hp⟩

/-- A cycle through a struct can be entered at one of its fields. -/
theorem faulty_iff {id : TypeId} {d : TypeDef} (hd : t.get? id = some d) :
    t.Faulty id ↔ d.MayFail ∨ d.kind = .struct ∧ ∃ f ∈ d.fields, t.Faulty f.type := by
  constructor
  · intro h
    cases h with
    | inl h =>
      apply ((reachesSome_iff hd).1 h).imp_right
      rintro ⟨hk, f, hf, h⟩
      exact ⟨hk, f, hf, .inl h⟩
    | inr h =>
      obtain ⟨u, hu, hcycle⟩ := h
      right
      have hstep : ∃ b, t.Holds id b ∧ ∃ v, t.Reaches b v ∧ t.OnCycle v := by
        cases hu.cases_head with
        | inl h =>
          subst h
          obtain ⟨b, hb, hback⟩ := Relation.TransGen.head'_iff.1 hcycle
          exact ⟨b, hb, id, hback, hcycle⟩
        | inr h =>
          obtain ⟨b, hb, hbu⟩ := h
          exact ⟨b, hb, u, hbu, hcycle⟩
      obtain ⟨b, hb, hv⟩ := hstep
      obtain ⟨hk, f, hf, hfb⟩ := (holds_iff hd).1 hb
      exact ⟨hk, f, hf, .inr (hfb ▸ hv)⟩
  · intro h
    cases h with
    | inl h => exact .inl ⟨id, d, .refl, hd, h⟩
    | inr h =>
      obtain ⟨hk, f, hf, h⟩ := h
      have hstep : t.Holds id f.type := ⟨d, hd, hk, f, hf, rfl⟩
      apply h.imp
      · rintro ⟨u, x, hu, hx⟩
        exact ⟨u, x, .head hstep hu, hx⟩
      · rintro ⟨u, hu, hcycle⟩
        exact ⟨u, .head hstep hu, hcycle⟩

theorem faulty_of_back {id b : TypeId} (h : t.Holds id b) (hback : t.Reaches b id) : t.Faulty b :=
  .inr ⟨b, .refl, .tail' hback h⟩

theorem contains_of_get? {id : TypeId} {d : TypeDef} (h : t.get? id = some d) : t.contains id = true :=
  contains_of_get (get_eq_ok.2 h)

theorem mem_defs_of_get? {id : TypeId} {d : TypeDef} (h : t.get? id = some d) : d ∈ t.defs :=
  mem_defs_of_get (get_eq_ok.2 h)

theorem FieldsRegistered.contains_of_holds (ht : t.FieldsRegistered) {a b : TypeId} (h : t.Holds a b) :
    t.contains b = true := by
  obtain ⟨d, hd, _, f, hf, hfb⟩ := h
  rw [← hfb]
  exact ht d (mem_defs_of_get? hd) f hf

theorem fitsKind_plain {k : TypeKind} {n : String} {target : Option TypeId}
    {m : Option Bool} : TypeDef.FitsKind { kind := k, name := n, target := target, mutable := m } :=
  ⟨fun _ => rfl, fun _ => rfl⟩

theorem Adds.fitsKind {d : TypeDef} (ht : t.Adds t' d) (h : ∀ x ∈ t.defs, x.FitsKind) (hd : d.FitsKind) :
    ∀ x ∈ t'.defs, x.FitsKind := by
  intro x hx
  rcases ht.mem hx with hx | rfl
  · exact h x hx
  · exact hd

theorem fitsKind_defineStruct {id : TypeId} {fields : List Field} (ht : t.defineStruct id fields = .ok t')
    (h : ∀ x ∈ t.defs, x.FitsKind) : ∀ x ∈ t'.defs, x.FitsKind := by
  intro d hd
  obtain ⟨x, hx, ht⟩ := bind_eq_ok.1 ht
  split at ht
  · cases ht
  next hk =>
    split at ht
    · cases ht
    next =>
      rw [Except.ok.injEq] at ht
      have hkind : x.kind = .struct := by simpa using hk
      rw [← ht] at hd
      apply (List.mem_or_eq_of_mem_set hd).elim (h d)
      rintro rfl
      exact ⟨fun h => (h hkind).elim, fun h => (h (.inl hkind)).elim⟩

theorem Built.fitsKind (h : t.Built) : ∀ d ∈ t.defs, d.FitsKind := by
  induction h with
  | empty => simp
  | newScalar _ ht ih => exact (adds_of_register ht).fitsKind ih fitsKind_plain
  | newForeign _ ht ih =>
    exact (adds_of_register ht).fitsKind ih ⟨fun _ => rfl, fun h => (h (.inr rfl)).elim⟩
  | declareStruct _ ht ih =>
    exact (adds_of_register ht).fitsKind ih ⟨fun h => (h rfl).elim, fun h => (h (.inl rfl)).elim⟩
  | defineStruct _ ht ih => exact fitsKind_defineStruct ht ih
  | newPointer _ ht ih =>
    obtain ⟨_, hadds⟩ := adds_of_shared ht
    exact hadds.fitsKind ih fitsKind_plain
  | newReference _ ht ih =>
    obtain ⟨_, hadds⟩ := adds_of_shared ht
    exact hadds.fitsKind ih fitsKind_plain
  | ensureInt _ ht ih => exact (adds_of_ensureInt ht).fitsKind ih fitsKind_plain
  | ensureBool _ ht ih => exact (adds_of_ensureBool ht).fitsKind ih fitsKind_plain
  | ensureUnknown _ ht ih => exact (adds_of_ensureUnknown ht).fitsKind ih fitsKind_plain

end TypeTable
end MovePlan
