import MovePlan.Proofs.Types.Registered

set_option autoImplicit false

namespace MovePlan
namespace TypeTable
variable {t t' : TypeTable}

def PointersLead (t : TypeTable) : Prop := ∀ d ∈ t.defs, d.kind.isNominal = false → d.target.isSome = true

theorem PointersLead.adds (h : t.PointersLead) {d : TypeDef} (ht : t.Adds t' d)
    (hd : d.kind.isNominal = false → d.target.isSome = true) : t'.PointersLead := by
  intro x hx hk
  rcases ht.mem hx with hx | rfl
  · exact h x hx hk
  · exact hd hk

theorem PointersLead.defineStruct (h : t.PointersLead) {id : TypeId} {fields : List Field}
    (ht : t.defineStruct id fields = .ok t') : t'.PointersLead := by
  obtain ⟨d, hd, -, -, rfl⟩ := of_defineStruct ht
  intro x hx hk
  rcases List.mem_or_eq_of_mem_set hx with hx | rfl
  · exact h x hx hk
  · exact h d (mem_defs_of_get hd) hk

theorem Built.pointersLead (h : t.Built) : t.PointersLead := by
  induction h with
  | empty => intro d hd; cases hd
  | newScalar _ ht ih => exact ih.adds (adds_of_register ht) nofun
  | newForeign _ ht ih => exact ih.adds (adds_of_register ht) nofun
  | declareStruct _ ht ih => exact ih.adds (adds_of_register ht) nofun
  | defineStruct _ ht ih => exact ih.defineStruct ht
  | newPointer _ ht ih =>
    obtain ⟨x, hx⟩ := adds_of_shared ht
    exact ih.adds hx fun _ => rfl
  | newReference _ ht ih =>
    obtain ⟨x, hx⟩ := adds_of_shared ht
    exact ih.adds hx fun _ => rfl
  | ensureInt _ ht ih => exact ih.adds (adds_of_ensureInt ht) nofun
  | ensureBool _ ht ih => exact ih.adds (adds_of_ensureBool ht) nofun
  | ensureUnknown _ ht ih => exact ih.adds (adds_of_ensureUnknown ht) nofun

theorem PointersLead.of_pointee (h : t.PointersLead) {depth : ℕ} {id : TypeId} {d : TypeDef}
    (hd : t.pointee depth id = .ok (d, false)) : t.get id = .ok d ∧ d.kind.isNominal = true := by
  cases depth with
  | zero => cases hd
  | succ depth =>
    obtain ⟨x, hx, hd⟩ := bind_eq_ok.1 hd
    split at hd
    · obtain ⟨_, _, hd⟩ := bind_eq_ok.1 hd
      cases hd
    · obtain ⟨_, _, hd⟩ := bind_eq_ok.1 hd
      cases hd
    next hpointer hreference =>
    obtain rfl : x = d := congrArg Prod.fst (pure_eq_ok.1 hd)
    refine ⟨hx, ?_⟩
    by_contra hk
    rw [Bool.not_eq_true] at hk
    obtain ⟨inner, hinner⟩ := Option.isSome_iff_exists.1 (h x (mem_defs_of_get hx) hk)
    cases hkind : x.kind with
    | pointer => exact hpointer inner hkind hinner
    | reference => exact hreference inner hkind hinner
    | scalar | struct | foreign | unknown => simp [hkind, TypeKind.isNominal] at hk

/-- The path leads from one type to another by fields alone, and out of no aggregate with a destructor. -/
inductive PartOf (t : TypeTable) : TypeId → List String → TypeId → Prop
  | whole (id : TypeId) : PartOf t id [] id
  | field {id leaf : TypeId} {d : TypeDef} {x : Field} {name : String} {path : List String} :
      t.get id = .ok d → d.kind ≠ .pointer → d.kind ≠ .reference → d.ops.destructor = false →
      d.fieldNamed? name = some x → PartOf t x.type path leaf → PartOf t id (name :: path) leaf

theorem partOf_of_walk (ht : t.PointersLead) {id : TypeId} {path : List String} {steps : List TypeId}
    (h : t.walk id path = .ok (steps, false))
    (habove : ∀ a ∈ (id :: steps).dropLast, ∀ d, t.get a = .ok d → d.ops.destructor = false) :
    t.PartOf id path (steps.getLast?.getD id) := by
  induction path generalizing id steps with
  | nil =>
    obtain rfl : [] = steps := congrArg Prod.fst (Except.ok.inj h)
    exact .whole id
  | cons name path ih =>
    obtain ⟨⟨next, through⟩, hstep, h⟩ := bind_eq_ok.1 h
    obtain ⟨⟨rest, later⟩, hrest, h⟩ := bind_eq_ok.1 h
    rw [pure_eq_ok, Prod.mk.injEq] at h
    obtain ⟨rfl, hthrough⟩ := h
    rw [Bool.or_eq_false_iff] at hthrough
    obtain ⟨rfl, rfl⟩ := hthrough
    obtain ⟨⟨d, followed⟩, hd, hstep⟩ := bind_eq_ok.1 hstep
    cases hx : d.fieldNamed? name with
    | none => simp [hx] at hstep
    | some x =>
    simp only [hx, Except.ok.injEq, Prod.mk.injEq] at hstep
    obtain ⟨rfl, rfl⟩ := hstep
    obtain ⟨hget, hk⟩ := ht.of_pointee hd
    rw [List.dropLast_cons_of_ne_nil (by simp)] at habove
    have hleaf : t.PartOf x.type path (rest.getLast?.getD x.type) :=
      ih hrest fun a ha => habove a (List.mem_cons_of_mem _ ha)
    refine .field hget ?_ ?_ (habove id List.mem_cons_self d hget) hx ?_
    · rintro hp
      simp [hp, TypeKind.isNominal] at hk
    · rintro hr
      simp [hr, TypeKind.isNominal] at hk
    · rwa [List.getLast?_cons, Option.getD_some]

end TypeTable

theorem anyM_eq_false {ε α : Type} {g : α → Except ε Bool} {xs : List α} (h : xs.anyM g = .ok false) :
    ∀ x ∈ xs, g x = .ok false := by
  induction xs with
  | nil => simp
  | cons x xs ih =>
    rw [List.anyM] at h
    obtain ⟨found, hx, h⟩ := bind_eq_ok.1 h
    cases found with
    | true => cases h
    | false =>
      intro y hy
      rcases List.mem_cons.1 hy with rfl | hy
      · exact hx
      · exact ih h y hy

theorem TypeModel.partOf_of_fieldBlock? {t : TypeTable} (ht : t.Built) {root : TypeId} {s : Site}
    (h : (build t).fieldBlock? root s = .ok none) : (s.path ≠ [] → s.throughPointer = false) ∧
      ∃ p, (build t).resolvePath root s.path = .ok p ∧ t.PartOf root s.path p.leaf := by
  rw [fieldBlock?] at h
  by_cases hpath : s.path = []
  · rw [hpath]
    exact ⟨fun hne => absurd rfl hne, { root := root }, rfl, .whole root⟩
  rw [if_neg (by simpa using hpath)] at h
  obtain ⟨p, hp, h⟩ := bind_eq_ok.1 h
  split at h
  · cases h
  next hthrough =>
  rw [Bool.or_eq_true, not_or, Bool.not_eq_true, Bool.not_eq_true] at hthrough
  obtain ⟨above, habove, h⟩ := bind_eq_ok.1 h
  cases above with
  | true => cases h
  | false =>
  obtain ⟨⟨steps, through⟩, hwalk, heq⟩ := bind_eq_ok.1 hp
  rw [pure_eq_ok] at heq
  subst heq
  obtain rfl : through = false := hthrough.2
  refine ⟨fun _ => hthrough.1, _, hp, TypeTable.partOf_of_walk ht.pointersLead hwalk fun a ha d hd => ?_⟩
  have hno := anyM_eq_false habove a ha
  obtain ⟨d', hd', hno⟩ := bind_eq_ok.1 hno
  obtain rfl : d' = d := Except.ok.inj (hd'.symm.trans hd)
  exact pure_eq_ok.1 hno

end MovePlan
