import MovePlan.Analysis.LastUse
import MovePlan.Proofs.Answer
import MovePlan.Types.Standard

set_option autoImplicit false

namespace MovePlan
namespace TypeTable
variable {t t' : TypeTable}

/-- The tables that the operations build. -/
inductive Built : TypeTable → Prop
  | empty : Built {}
  | newScalar {t t' : TypeTable} {name : String} {id : TypeId} :
      Built t → t.newScalar name = .ok (t', id) → Built t'
  | newForeign {t t' : TypeTable} {name : String} {ops : UserOps} {id : TypeId} :
      Built t → t.newForeign name ops = .ok (t', id) → Built t'
  | declareStruct {t t' : TypeTable} {name : String} {ops : UserOps} {id : TypeId} :
      Built t → t.declareStruct name ops = .ok (t', id) → Built t'
  | defineStruct {t t' : TypeTable} {id : TypeId} {fields : List Field} :
      Built t → t.defineStruct id fields = .ok t' → Built t'
  | newPointer {t t' : TypeTable} {inner id : TypeId} :
      Built t → t.newPointer inner = .ok (t', id) → Built t'
  | newReference {t t' : TypeTable} {inner id : TypeId} {isMut : Bool} :
      Built t → t.newReference inner isMut = .ok (t', id) → Built t'
  | ensureInt {t t' : TypeTable} {id : TypeId} :
      Built t → t.ensureInt = .ok (t', id) → Built t'
  | ensureBool {t t' : TypeTable} {id : TypeId} :
      Built t → t.ensureBool = .ok (t', id) → Built t'
  | ensureUnknown {t t' : TypeTable} {id : TypeId} :
      Built t → t.ensureUnknown = .ok (t', id) → Built t'

def FieldsRegistered (t : TypeTable) : Prop :=
  ∀ d ∈ t.defs, ∀ x ∈ d.fields, t.contains x.type = true

theorem contains_iff {id : Int} : t.contains id = true ↔ 1 ≤ id ∧ id ≤ (t.size : Int) := by
  rw [contains, get?, size]
  split
  next h =>
    have hpos : (1 : Int) ≤ id := h
    rw [isSome_getElem?]
    omega
  next h => simp [h]

theorem mem_ids {id : Int} : id ∈ t.ids ↔ t.contains id = true := by
  rw [contains_iff, ids, List.mem_map]
  constructor
  · rintro ⟨i, hi, rfl⟩
    rw [List.mem_range] at hi
    omega
  · rintro ⟨h, h'⟩
    exact ⟨(id - 1).toNat, by rw [List.mem_range]; omega, by omega⟩

theorem get_eq_ok {id : TypeId} {d : TypeDef} : t.get id = .ok d ↔ t.get? id = some d := by
  rw [get]
  cases t.get? id <;> simp

theorem mem_defs_of_get {id : TypeId} {d : TypeDef} (h : t.get id = .ok d) : d ∈ t.defs := by
  rw [get_eq_ok, get?] at h
  split at h
  · exact List.mem_of_getElem? h
  · cases h

theorem contains_of_get {id : TypeId} {d : TypeDef} (h : t.get id = .ok d) : t.contains id = true := by
  rw [contains, get_eq_ok.1 h]
  rfl

theorem contains_of_size_le (h : t.size ≤ t'.size) {id : TypeId} (hid : t.contains id = true) :
    t'.contains id = true := by
  have := contains_iff.1 hid
  exact contains_iff.2 (by omega)

def Adds (t t' : TypeTable) (d : TypeDef) : Prop := t'.defs = t.defs ∨ t'.defs = t.defs ++ [d]

theorem Adds.mem {d x : TypeDef} (h : t.Adds t' d) (hx : x ∈ t'.defs) : x ∈ t.defs ∨ x = d := by
  rcases h with h | h
  · exact .inl (h ▸ hx)
  · rwa [h, List.mem_append, List.mem_singleton] at hx

theorem Adds.size_le {d : TypeDef} (h : t.Adds t' d) : t.size ≤ t'.size := by
  rcases h with h | h <;> simp [size, h]

theorem append_of_register {d : TypeDef} {id : TypeId} (ht : t.register d = .ok (t', id)) :
    (t.append d).1 = t' ∧ (t.append d).2 = id := by
  rw [register] at ht
  split at ht
  · cases ht
  · exact Prod.mk.inj (Except.ok.inj ht)

theorem adds_of_register {d : TypeDef} {id : TypeId} (ht : t.register d = .ok (t', id)) : t.Adds t' d := by
  rw [← (append_of_register ht).1]
  exact .inr rfl

theorem adds_of_ensure {d : TypeDef} (keep : TypeTable → TypeId → TypeTable)
    (hkeep : ∀ s i, (keep s i).defs = s.defs) {known : Option TypeId} {id : TypeId}
    (ht : (match known with
      | some id => .ok (t, id)
      | none => do
        let (s, i) ← t.register d
        return (keep s i, i)) = (.ok (t', id) : Except TypeError (TypeTable × TypeId))) : t.Adds t' d := by
  cases known with
  | some i =>
    rw [Except.ok.injEq, Prod.mk.injEq] at ht
    exact .inl (by rw [← ht.1])
  | none =>
    obtain ⟨⟨s, i⟩, hs, hr⟩ := bind_eq_ok.1 ht
    rw [pure_eq_ok, Prod.mk.injEq] at hr
    rw [Adds, ← hr.1, hkeep]
    exact adds_of_register hs

theorem adds_of_ensureInt {id : TypeId} (ht : t.ensureInt = .ok (t', id)) :
    t.Adds t' { kind := .scalar, name := "Int" } :=
  adds_of_ensure (fun s i => { s with intType := some i }) (fun _ _ => rfl) ht

theorem adds_of_ensureBool {id : TypeId} (ht : t.ensureBool = .ok (t', id)) :
    t.Adds t' { kind := .scalar, name := "Bool" } :=
  adds_of_ensure (fun s i => { s with boolType := some i }) (fun _ _ => rfl) ht

theorem adds_of_ensureUnknown {id : TypeId} (ht : t.ensureUnknown = .ok (t', id)) :
    t.Adds t' { kind := .unknown, name := "Unknown" } :=
  adds_of_ensure (fun s i => { s with unknownType := some i }) (fun _ _ => rfl) ht

theorem of_shared {known : Option TypeId} {inner : TypeId} {d : TypeDef → TypeDef} {id : TypeId}
    (ht : (match known with
      | some id => .ok (t, id)
      | none => do
        let x ← t.get inner
        return t.append (d x)) = (.ok (t', id) : Except TypeError (TypeTable × TypeId))) :
    (known = some id ∧ t' = t) ∨
      known = none ∧ ∃ x, t.get inner = .ok x ∧ t' = (t.append (d x)).1 ∧ id = (t.append (d x)).2 := by
  cases known with
  | some i =>
    rw [Except.ok.injEq, Prod.mk.injEq] at ht
    exact .inl ⟨congrArg some ht.2, ht.1.symm⟩
  | none =>
    obtain ⟨x, hx, hr⟩ := bind_eq_ok.1 ht
    obtain ⟨hfirst, hsecond⟩ := Prod.mk.inj (pure_eq_ok.1 hr)
    exact .inr ⟨rfl, x, hx, hfirst.symm, hsecond.symm⟩

theorem adds_of_shared {known : Option TypeId} {inner : TypeId} {d : TypeDef → TypeDef} {id : TypeId}
    (ht : (match known with
      | some id => .ok (t, id)
      | none => do
        let x ← t.get inner
        return t.append (d x)) = (.ok (t', id) : Except TypeError (TypeTable × TypeId))) :
    ∃ x, t.Adds t' (d x) := by
  rcases of_shared ht with ⟨-, rfl⟩ | ⟨-, x, -, rfl, -⟩
  · exact ⟨default, .inl rfl⟩
  · exact ⟨x, .inr rfl⟩

theorem of_defineStruct {id : TypeId} {fields : List Field} (ht : t.defineStruct id fields = .ok t') :
    ∃ d, t.get id = .ok d ∧ d.kind = .struct ∧ t.fieldFault d.name [] fields = none ∧
      t' = { t with defs := t.defs.set (id - 1).toNat { d with fields := fields } } := by
  obtain ⟨d, hd, ht⟩ := bind_eq_ok.1 ht
  split at ht
  · cases ht
  next hkind =>
    split at ht
    · cases ht
    next hfault => exact ⟨d, hd, Decidable.not_not.1 hkind, hfault, (Except.ok.inj ht).symm⟩

theorem map_defs_of_defineStruct {α : Type} {g : TypeDef → α}
    (hg : ∀ (d : TypeDef) (fields : List Field), g { d with fields := fields } = g d)
    {id : TypeId} {fields : List Field} (ht : t.defineStruct id fields = .ok t') :
    t'.defs.map g = t.defs.map g := by
  obtain ⟨d, hd, -, -, rfl⟩ := of_defineStruct ht
  have hold : (t.defs.map g)[(id - 1).toNat]? = some (g { d with fields := fields }) := by
    have hpos := (contains_iff.1 (contains_of_get hd)).1
    rw [get_eq_ok, get?, if_pos hpos] at hd
    rw [List.getElem?_map, hd, hg, Option.map_some]
  obtain ⟨hi, hget⟩ := List.getElem?_eq_some_iff.1 hold
  rw [List.map_set, ← hget, List.set_getElem_self]

theorem le_of_findFrom {p : TypeDef → Bool} {first id : Int} {ds : List TypeDef}
    (h : findFrom p first ds = some id) : first ≤ id ∧ id < first + (ds.length : Int) := by
  induction ds generalizing first with
  | nil => cases h
  | cons d ds ih =>
    rw [findFrom] at h
    rw [List.length_cons]
    split at h
    · have heq : first = id := Option.some.inj h
      omega
    · have := ih h
      omega

theorem contains_of_findFrom {p : TypeDef → Bool} {id : Int} (h : findFrom p 1 t.defs = some id) :
    t.contains id = true := by
  have := le_of_findFrom h
  exact contains_iff.2 ⟨this.1, by rw [size]; omega⟩

theorem contains_of_lookup {name : String} {id : TypeId} (h : t.lookup name = some id) :
    t.contains id = true :=
  contains_of_findFrom h

theorem contains_append (d : TypeDef) : (t.append d).1.contains (t.append d).2 = true := by
  rw [contains_iff, append, size, size, List.length_append, List.length_singleton]
  omega

theorem contains_of_shared {p : TypeDef → Bool} {inner : TypeId} {d : TypeDef → TypeDef} {id : TypeId}
    (ht : (match findFrom p 1 t.defs with
      | some id => .ok (t, id)
      | none => do
        let x ← t.get inner
        return t.append (d x)) = (.ok (t', id) : Except TypeError (TypeTable × TypeId))) :
    t'.contains id = true := by
  rcases of_shared ht with ⟨hfound, rfl⟩ | ⟨-, x, -, rfl, rfl⟩
  · exact contains_of_findFrom hfound
  · exact t.contains_append (d x)

theorem FieldsRegistered.adds (h : t.FieldsRegistered) {d : TypeDef} (ht : t.Adds t' d)
    (hd : d.fields = []) : t'.FieldsRegistered := by
  intro x hx y hy
  rcases ht.mem hx with hx | rfl
  · exact contains_of_size_le ht.size_le (h x hx y hy)
  · rw [hd] at hy
    cases hy

theorem contains_of_fieldFault {struct : String} {seen : List String} {fields : List Field}
    (h : t.fieldFault struct seen fields = none) {x : Field} (hx : x ∈ fields) :
    t.contains x.type = true := by
  induction fields generalizing seen with
  | nil => simp at hx
  | cons y fields ih =>
    rw [fieldFault] at h
    split at h
    · cases h
    · split at h
      · cases h
      next hc =>
        rcases List.mem_cons.1 hx with rfl | hx
        · simpa using hc
        · exact ih h hx

theorem defineStruct_eq_ok {id : TypeId} {fields : List Field} (ht : t.defineStruct id fields = .ok t') :
    t'.size = t.size ∧ ∀ x ∈ t'.defs, x ∈ t.defs ∨ ∀ y ∈ x.fields, t.contains y.type = true := by
  obtain ⟨d, -, -, hfault, rfl⟩ := of_defineStruct ht
  refine ⟨List.length_set, fun x hx => ?_⟩
  rcases List.mem_or_eq_of_mem_set hx with hx | rfl
  · exact .inl hx
  · exact .inr fun y hy => contains_of_fieldFault hfault hy

theorem FieldsRegistered.defineStruct (h : t.FieldsRegistered) {id : TypeId} {fields : List Field}
    (ht : t.defineStruct id fields = .ok t') : t'.FieldsRegistered := by
  obtain ⟨hsize, hdefs⟩ := defineStruct_eq_ok ht
  intro x hx y hy
  refine contains_of_size_le (Nat.le_of_eq hsize.symm) ?_
  rcases hdefs x hx with hold | hnew
  · exact h x hold y hy
  · exact hnew y hy

theorem Built.fieldsRegistered (h : t.Built) : t.FieldsRegistered := by
  induction h with
  | empty => simp [FieldsRegistered]
  | newScalar _ ht ih => exact ih.adds (adds_of_register ht) rfl
  | newForeign _ ht ih => exact ih.adds (adds_of_register ht) rfl
  | declareStruct _ ht ih => exact ih.adds (adds_of_register ht) rfl
  | defineStruct _ ht ih => exact ih.defineStruct ht
  | newPointer _ ht ih =>
    obtain ⟨_, hadds⟩ := adds_of_shared ht
    exact ih.adds hadds rfl
  | newReference _ ht ih =>
    obtain ⟨_, hadds⟩ := adds_of_shared ht
    exact ih.adds hadds rfl
  | ensureInt _ ht ih => exact ih.adds (adds_of_ensureInt ht) rfl
  | ensureBool _ ht ih => exact ih.adds (adds_of_ensureBool ht) rfl
  | ensureUnknown _ ht ih => exact ih.adds (adds_of_ensureUnknown ht) rfl

/-- A later table: operations build it, and it has the types of the earlier one. -/
structure Extends (t t' : TypeTable) : Prop where
  built : t.Built → t'.Built
  contains : ∀ {id : TypeId}, t.contains id = true → t'.contains id = true

namespace Extends

theorem refl (t : TypeTable) : t.Extends t := ⟨id, id⟩

theorem trans {t'' : TypeTable} (h : t.Extends t') (h' : t'.Extends t'') : t.Extends t'' :=
  ⟨h'.built ∘ h.built, h'.contains ∘ h.contains⟩

theorem of_adds {d : TypeDef} (h : t.Adds t' d) (hbuilt : t.Built → t'.Built) : t.Extends t' :=
  ⟨hbuilt, contains_of_size_le h.size_le⟩

end Extends

theorem standard_built : standard.Built := by
  have int : Built _ := .ensureInt .empty rfl
  have str : Built _ := .newForeign int (show newForeign _ "Str"
    { moveCtor := some {}, moveAssign := some {}, destructor := true } = .ok (_, 2) from rfl)
  have handle : Built _ := .newForeign str
    (show newForeign _ "Handle" { destructor := true } = .ok (_, 3) from rfl)
  have buf : Built _ := .newForeign handle
    (show newForeign _ "Buf" { moveCtor := some {} } = .ok (_, 4) from rfl)
  have named : Built _ := .declareStruct buf (show declareStruct _ "Pair" {} = .ok (_, 5) from rfl)
  have pair : Built _ := .defineStruct named
    (show defineStruct _ 5 [⟨"name", 2⟩, ⟨"count", 1⟩] = .ok _ from rfl)
  have named : Built _ := .declareStruct pair
    (show declareStruct _ "Guarded" { destructor := true } = .ok (_, 6) from rfl)
  have guarded : Built _ := .defineStruct named
    (show defineStruct _ 6 [⟨"payload", 2⟩] = .ok _ from rfl)
  have pointer : Built _ := .newPointer guarded (show newPointer _ 5 = .ok (_, 7) from rfl)
  have named : Built _ := .declareStruct pointer (show declareStruct _ "Holder" {} = .ok (_, 8) from rfl)
  exact .defineStruct named
    (show defineStruct _ 8 [⟨"inner", 5⟩, ⟨"ptr", 7⟩] = .ok standard from rfl)

theorem step_eq_ok {id next : TypeId} {field : String} {through : Bool}
    (h : t.step id field = .ok (next, through)) :
    t.contains id = true ∧ ∃ d ∈ t.defs, ∃ x ∈ d.fields, x.type = next := by
  have hpointee : ∀ (depth : ℕ) (id : TypeId) (d : TypeDef) (through : Bool),
      t.pointee depth id = .ok (d, through) → t.contains id = true ∧ d ∈ t.defs := by
    intro depth
    induction depth with
    | zero => intro id d through h; cases h
    | succ depth ih =>
      intro id d through h
      obtain ⟨x, hx, h⟩ := bind_eq_ok.1 h
      refine ⟨contains_of_get hx, ?_⟩
      split at h
      · obtain ⟨p, hp, h⟩ := bind_eq_ok.1 h
        rw [pure_eq_ok, Prod.mk.injEq] at h
        rw [← h.1]
        exact (ih _ p.1 p.2 hp).2
      · obtain ⟨p, hp, h⟩ := bind_eq_ok.1 h
        rw [pure_eq_ok, Prod.mk.injEq] at h
        rw [← h.1]
        exact (ih _ p.1 p.2 hp).2
      · rw [pure_eq_ok, Prod.mk.injEq] at h
        rw [← h.1]
        exact mem_defs_of_get hx
  obtain ⟨⟨d, th⟩, hd, h⟩ := bind_eq_ok.1 h
  obtain ⟨hc, hmem⟩ := hpointee _ _ _ _ hd
  simp only at h
  split at h
  next x hx =>
    rw [Except.ok.injEq, Prod.mk.injEq] at h
    exact ⟨hc, d, hmem, x, List.mem_of_find?_eq_some hx, h.1⟩
  next => cases h

theorem contains_of_walk (hfields : t.FieldsRegistered) {id : TypeId} {path : List String}
    {steps : List TypeId} {through : Bool} (hid : t.contains id = true)
    (h : t.walk id path = .ok (steps, through)) : ∀ x ∈ id :: steps, t.contains x = true := by
  induction path generalizing id steps through with
  | nil =>
    rw [walk, Except.ok.injEq, Prod.mk.injEq] at h
    simpa [← h.1] using hid
  | cons field path ih =>
    obtain ⟨⟨next, th⟩, hstep, h⟩ := bind_eq_ok.1 h
    obtain ⟨⟨rest, later⟩, hrest, h⟩ := bind_eq_ok.1 h
    rw [pure_eq_ok, Prod.mk.injEq] at h
    obtain ⟨_, d, hd, x, hx, hnext⟩ := step_eq_ok hstep
    have htail := ih (hnext ▸ hfields d hd x hx) hrest
    intro y hy
    rw [← h.1] at hy
    rcases List.mem_cons.1 hy with rfl | hy
    · exact hid
    · exact htail y hy

end TypeTable

namespace PathTypes

theorem mem_chain_of_mem_ancestors {p : PathTypes} {x : TypeId} (h : x ∈ p.ancestors) :
    x ∈ p.root :: p.steps :=
  List.dropLast_subset _ h

theorem leaf_mem_chain (p : PathTypes) : p.leaf ∈ p.root :: p.steps := by
  rw [leaf]
  cases h : p.steps.getLast? with
  | none => exact List.mem_cons_self
  | some x => exact List.mem_cons_of_mem _ (List.mem_of_getLast? h)

end PathTypes

namespace Classification
variable {t : TypeTable}

@[simp] theorem facts_report (c : Classification) (code message : String) (span : Span) :
    (c.report code message span).facts = c.facts := rfl

@[simp] theorem facts_reportFailing (c : Classification) (d : TypeDef) :
    (c.reportFailing d).facts = c.facts := by
  rw [reportFailing]
  induction failingMoves d generalizing c with
  | nil => rfl
  | cons m ms ih => rw [List.foldl_cons, ih, facts_report]

@[simp] theorem facts_classifyForeign (d : TypeDef) (c : Classification) :
    (classifyForeign d c).1.facts = c.facts := by
  simp only [classifyForeign]
  split
  · simp
  · split <;> simp

@[simp] theorem facts_concludeStruct (d : TypeDef) (c : Classification) (s : FieldSummary) :
    (concludeStruct d c s).1.facts = c.facts := by
  simp only [concludeStruct]
  split
  · simp
  · split <;> simp

theorem mem_keys_foldFields {d : TypeDef} {busy : List TypeId}
    {classify : TypeId → Classification → Classification × TypeFacts} {x : TypeId}
    (hkeep : ∀ id c, x ∈ c.facts.keys → x ∈ (classify id c).1.facts.keys) {fields : List Field}
    {c : Classification} {s : FieldSummary} (h : x ∈ c.facts.keys) :
    x ∈ (foldFields t d busy classify fields c s).1.facts.keys := by
  induction fields generalizing c s with
  | nil => exact h
  | cons y fields ih =>
    rw [foldFields]
    split
    · exact ih h
    · refine ih ?_
      have hnext := hkeep y.type c h
      split <;> exact hnext

theorem mem_keys_classify {depth : ℕ} {busy : List TypeId} {id x : TypeId} {c : Classification}
    (h : x ∈ c.facts.keys) : x ∈ (classify t depth busy id c).1.facts.keys := by
  induction depth generalizing busy id c with
  | zero => exact h
  | succ depth ih =>
    rw [classify]
    split
    · exact h
    · refine (OrderedMap.mem_keys_put _ _ _ _).2 (.inr ?_)
      split
      · exact h
      · split
        · rw [facts_concludeStruct]
          exact mem_keys_foldFields (fun id c hc => ih hc) h
        · rw [facts_classifyForeign]
          exact h
        · exact h

theorem mem_keys_classify_self {depth : ℕ} {busy : List TypeId} {id : TypeId} {c : Classification} :
    id ∈ (classify t (depth + 1) busy id c).1.facts.keys := by
  rw [classify]
  split
  next facts hf =>
    exact (OrderedMap.contains_iff _ _).1 (by rw [OrderedMap.contains, hf]; rfl)
  next => exact (OrderedMap.mem_keys_put _ _ _ _).2 (.inl rfl)

end Classification

namespace TypeModel
variable {t : TypeTable}

theorem exists_factsOf {id : TypeId} (h : t.contains id = true) :
    ∃ x, (build t).factsOf id = .ok x := by
  -- a type is classified when its turn comes, or already by a struct that holds it
  have main : ∀ (ids : List TypeId) (c : Classification), id ∈ ids ∨ id ∈ c.facts.keys →
      id ∈ (ids.foldl (fun c id => (Classification.classify t (t.size + 1) [] id c).1) c).facts.keys := by
    intro ids
    induction ids with
    | nil => intro c h; exact h.resolve_left (by simp)
    | cons x ids ih =>
      rintro c (h | h)
      · rcases List.mem_cons.1 h with rfl | h
        · exact ih _ (.inr Classification.mem_keys_classify_self)
        · exact ih _ (.inl h)
      · exact ih _ (.inr (Classification.mem_keys_classify h))
  have hmem := (OrderedMap.contains_iff _ _).2 (main t.ids {} (.inl (TypeTable.mem_ids.2 h)))
  rw [OrderedMap.contains, Option.isSome_iff_exists] at hmem
  obtain ⟨x, hx⟩ := hmem
  exact ⟨x, by simp only [factsOf, build, hx]⟩

section Answers
variable {id : TypeId}

theorem exists_needsDestroy (h : t.contains id = true) : ∃ x, (build t).needsDestroy id = .ok x :=
  exists_bind (exists_factsOf h) fun _ _ => exists_pure

theorem exists_isMoveCapable (h : t.contains id = true) : ∃ x, (build t).isMoveCapable id = .ok x :=
  exists_bind (exists_factsOf h) fun _ _ => exists_pure

theorem exists_isViolating (h : t.contains id = true) : ∃ x, (build t).isViolating id = .ok x :=
  exists_bind (exists_factsOf h) fun _ _ => exists_pure

theorem exists_get (h : t.contains id = true) : ∃ d, t.get id = .ok d := by
  rw [TypeTable.contains, Option.isSome_iff_exists] at h
  obtain ⟨d, hd⟩ := h
  exact ⟨d, TypeTable.get_eq_ok.2 hd⟩

theorem exists_typeName (h : t.contains id = true) : ∃ x, (build t).typeName id = .ok x :=
  exists_bind (exists_get h) fun _ _ => exists_pure

theorem exists_hasDestructor (h : t.contains id = true) : ∃ x, (build t).hasDestructor id = .ok x :=
  exists_bind (exists_get h) fun _ _ => exists_pure

end Answers

theorem contains_of_resolvePath (ht : t.FieldsRegistered) {root : TypeId}
    (hroot : t.contains root = true) {path : List String} {p : PathTypes}
    (h : (build t).resolvePath root path = .ok p) : ∀ x ∈ p.root :: p.steps, t.contains x = true := by
  obtain ⟨⟨steps, through⟩, hwalk, hp⟩ := bind_eq_ok.1 h
  rw [pure_eq_ok] at hp
  rw [← hp]
  exact TypeTable.contains_of_walk ht hroot hwalk

/-- The rule on field moves follows the path. -/
theorem exists_resolvePath_of_fieldBlock? {m : TypeModel} {root : TypeId} {s : Site} {r : Option FieldBlock}
    (h : m.fieldBlock? root s = .ok r) : ∃ p, m.resolvePath root s.path = .ok p := by
  rw [fieldBlock?] at h
  split at h
  next hempty => exact ⟨_, by rw [List.isEmpty_iff.1 hempty]; rfl⟩
  next =>
    obtain ⟨p, hp, -⟩ := bind_eq_ok.1 h
    exact ⟨p, hp⟩

theorem exists_fieldBlock? (ht : t.FieldsRegistered) {root : TypeId}
    (hroot : t.contains root = true) {s : Site}
    (hpath : ∃ p, (build t).resolvePath root s.path = .ok p) :
    ∃ r, (build t).fieldBlock? root s = .ok r := by
  obtain ⟨p, hp⟩ := hpath
  have hchain := contains_of_resolvePath ht hroot hp
  obtain ⟨above, habove⟩ : ∃ y, p.ancestors.anyM (build t).hasDestructor = .ok y :=
    exists_anyM fun x hx => exists_hasDestructor (hchain x (PathTypes.mem_chain_of_mem_ancestors hx))
  obtain ⟨capable, hleaf⟩ := exists_isMoveCapable (hchain p.leaf p.leaf_mem_chain)
  rw [fieldBlock?]
  split
  · exact ⟨none, rfl⟩
  · simp only [hp, habove, hleaf, bind, Except.bind]
    split
    · exact ⟨_, rfl⟩
    · split
      · exact ⟨_, rfl⟩
      · split <;> exact ⟨_, rfl⟩

end TypeModel
end MovePlan
