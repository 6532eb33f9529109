import MovePlan.Proofs.Types.Registered

set_option autoImplicit false

namespace MovePlan.TypeTable
variable {t t' : TypeTable}

/-- What stays of a definition when a struct gets its fields. -/
def heads (t : TypeTable) : List (TypeKind × String) := t.defs.map fun d => (d.kind, d.name)

/-- The names of the nominal types, in the order of their registration. -/
def names (t : TypeTable) : List String := (t.heads.filter (·.1.isNominal)).map (·.2)

def kind? (t : TypeTable) (id : TypeId) : Option TypeKind := (t.get? id).map (·.kind)

theorem kind?_eq (t : TypeTable) (id : TypeId) :
    t.kind? id = if 1 ≤ id then t.heads[(id - 1).toNat]?.map (·.1) else none := by
  rw [kind?, get?]
  split
  · rw [heads, List.getElem?_map, Option.map_map]
    rfl
  · rfl

theorem contains_iff_kind? {id : TypeId} : t.contains id = true ↔ (t.kind? id).isSome = true := by
  rw [kind?, Option.isSome_map, contains]

theorem findFrom_isSome_iff {p : TypeDef → Bool} {id : Int} {ds : List TypeDef} :
    (findFrom p id ds).isSome = true ↔ ∃ d ∈ ds, p d = true := by
  induction ds generalizing id with
  | nil => simp [findFrom]
  | cons d ds ih =>
    rw [findFrom, List.exists_mem_cons_iff]
    split
    next h => simp [h]
    next h => simp [h, ih]

theorem lookup_isSome_iff {name : String} : (t.lookup name).isSome = true ↔ name ∈ t.names := by
  rw [lookup, findFrom_isSome_iff, names, heads]
  simp [and_assoc]

theorem lookup_eq_none_iff {name : String} : t.lookup name = none ↔ name ∉ t.names := by
  rw [← lookup_isSome_iff, Bool.not_eq_true, Option.isSome_eq_false_iff, Option.isNone_iff_eq_none]

theorem heads_append (d : TypeDef) : (t.append d).1.heads = t.heads ++ [(d.kind, d.name)] := by
  simp [append, heads]

theorem names_append (d : TypeDef) :
    (t.append d).1.names = t.names ++ if d.kind.isNominal then [d.name] else [] := by
  rw [names, heads_append, List.filter_append, List.map_append, names]
  cases hd : d.kind.isNominal <;> simp [hd]

/-- A later table has all definitions of the earlier one, in their order. -/
def Later (t t' : TypeTable) : Prop := t.heads <+: t'.heads

namespace Later

theorem refl (t : TypeTable) : t.Later t := List.prefix_rfl

theorem trans {t'' : TypeTable} (h : t.Later t') (h' : t'.Later t'') : t.Later t'' :=
  List.IsPrefix.trans h h'

theorem of_heads (h : t'.heads = t.heads) : t.Later t' := ⟨[], by rw [List.append_nil, h]⟩

theorem append (d : TypeDef) : t.Later (t.append d).1 := by
  rw [Later, heads_append]
  exact List.prefix_append _ _

theorem kind? (h : t.Later t') {id : TypeId} {k : TypeKind} (hk : t.kind? id = some k) :
    t'.kind? id = some k := by
  rw [kind?_eq] at hk ⊢
  split at hk
  next hpos =>
    obtain ⟨x, hx, rfl⟩ := Option.map_eq_some_iff.1 hk
    obtain ⟨hi, rfl⟩ := List.getElem?_eq_some_iff.1 hx
    rw [if_pos hpos, List.prefix_iff_getElem?.1 h _ hi]
    rfl
  next => cases hk

theorem contains (h : t.Later t') {id : TypeId} (hid : t.contains id = true) : t'.contains id = true := by
  rw [contains_iff_kind?, Option.isSome_iff_exists] at hid ⊢
  obtain ⟨k, hk⟩ := hid
  exact ⟨k, h.kind? hk⟩

theorem mem_names (h : t.Later t') {name : String} (hname : name ∈ t.names) : name ∈ t'.names :=
  ((h.sublist.filter _).map _).subset hname

end Later

theorem kind?_append (d : TypeDef) : (t.append d).1.kind? (t.append d).2 = some d.kind := by
  have hpos : (1 : Int) ≤ (t.size : Int) + 1 := by omega
  have hindex : ((t.size : Int) + 1 - 1).toNat = t.heads.length := by
    rw [size, heads, List.length_map]
    omega
  rw [kind?_eq, heads_append]
  change (if (1 : Int) ≤ (t.size : Int) + 1 then _ else none) = _
  rw [if_pos hpos]
  change (t.heads ++ _)[((t.size : Int) + 1 - 1).toNat]?.map _ = _
  rw [hindex, List.getElem?_concat_length]
  rfl

theorem register_eq_ok {d : TypeDef} (h : d.name ∉ t.names) : t.register d = .ok (t.append d) := by
  rw [register, if_neg]
  rwa [lookup_isSome_iff]

theorem register_eq_error {d : TypeDef} (h : d.name ∈ t.names) :
    t.register d = .error (.duplicateName d.name) := by
  rw [register, if_pos]
  rwa [lookup_isSome_iff]

/-- What a pointer, a reference or the fields of a struct leave as it was. -/
structure Shares (t t' : TypeTable) : Prop where
  names : t'.names = t.names
  unknownType : t'.unknownType = t.unknownType
  later : t.Later t'

theorem exists_shared {p : TypeDef → Bool} {inner : TypeId} {d : TypeDef → TypeDef}
    (hd : ∀ x, (d x).kind.isNominal = false) (hinner : t.contains inner = true) :
    ∃ t' id, (match findFrom p 1 t.defs with
      | some id => .ok (t, id)
      | none => do
        let x ← t.get inner
        return t.append (d x)) = (.ok (t', id) : Except TypeError (TypeTable × TypeId)) ∧
      t.Shares t' ∧ t'.contains id = true := by
  cases hfound : findFrom p 1 t.defs with
  | some id => exact ⟨t, id, rfl, ⟨rfl, rfl, .refl t⟩, contains_of_findFrom hfound⟩
  | none =>
    obtain ⟨x, hx⟩ := TypeModel.exists_get hinner
    have hnames : (t.append (d x)).1.names = t.names := by
      rw [names_append, hd, if_neg Bool.false_ne_true, List.append_nil]
    exact ⟨_, _, bind_eq_ok.2 ⟨x, hx, rfl⟩, ⟨hnames, rfl, .append _⟩, t.contains_append (d x)⟩

theorem exists_newPointer {inner : TypeId} (h : t.contains inner = true) :
    ∃ t' id, t.newPointer inner = .ok (t', id) ∧ t.Shares t' ∧ t'.contains id = true :=
  exists_shared (fun _ => rfl) h

theorem exists_newReference {inner : TypeId} {isMut : Bool} (h : t.contains inner = true) :
    ∃ t' id, t.newReference inner isMut = .ok (t', id) ∧ t.Shares t' ∧ t'.contains id = true :=
  exists_shared (fun _ => rfl) h

theorem fieldFault_eq_none {struct : String} {seen : List String} {fields : List Field}
    (hnames : (fields.map (·.name)).Nodup) (hseen : ∀ x ∈ fields, x.name ∉ seen)
    (htypes : ∀ x ∈ fields, t.contains x.type = true) : t.fieldFault struct seen fields = none := by
  induction fields generalizing seen with
  | nil => rfl
  | cons x fields ih =>
    rw [List.map_cons, List.nodup_cons] at hnames
    rw [List.forall_mem_cons] at hseen htypes
    rw [fieldFault, if_neg hseen.1, htypes.1]
    refine ih hnames.2 (fun y hy hmem => ?_) htypes.2
    rcases List.mem_cons.1 hmem with heq | hmem
    · exact hnames.1 (heq ▸ List.mem_map_of_mem hy)
    · exact hseen.2 y hy hmem

theorem heads_of_defineStruct {id : TypeId} {fields : List Field}
    (ht : t.defineStruct id fields = .ok t') : t'.heads = t.heads :=
  map_defs_of_defineStruct (fun _ _ => rfl) ht

theorem exists_defineStruct {id : TypeId} {fields : List Field} (hid : t.kind? id = some .struct)
    (hnames : (fields.map (·.name)).Nodup) (htypes : ∀ x ∈ fields, t.contains x.type = true) :
    ∃ t', t.defineStruct id fields = .ok t' ∧ t.Shares t' := by
  obtain ⟨d, hd, hkind⟩ := Option.map_eq_some_iff.1 hid
  have hfault : t.fieldFault d.name [] fields = none := fieldFault_eq_none hnames (by simp) htypes
  have ht : t.defineStruct id fields =
      .ok { t with defs := t.defs.set (id - 1).toNat { d with fields := fields } } := by
    refine bind_eq_ok.2 ⟨d, get_eq_ok.2 hd, ?_⟩
    rw [if_neg (by simpa using hkind), hfault]
  have hheads := heads_of_defineStruct ht
  exact ⟨_, ht, ⟨by rw [names, hheads, names], rfl, .of_heads hheads⟩⟩

/-- A basic type that was asked for is in the table under its name. -/
structure BasicNamed (t : TypeTable) : Prop where
  int : t.intType.isSome = true → "Int" ∈ t.names
  bool : t.boolType.isSome = true → "Bool" ∈ t.names
  unknown : ∀ {id : TypeId}, t.unknownType = some id → t.contains id = true ∧ "Unknown" ∈ t.names

theorem BasicNamed.later (h : t.BasicNamed) (hlater : t.Later t') (hint : t'.intType = t.intType)
    (hbool : t'.boolType = t.boolType) (hunknown : t'.unknownType = t.unknownType) : t'.BasicNamed where
  int hid := hlater.mem_names (h.int (hint ▸ hid))
  bool hid := hlater.mem_names (h.bool (hbool ▸ hid))
  unknown hid := (h.unknown (hunknown ▸ hid)).imp hlater.contains hlater.mem_names

theorem BasicNamed.append (h : t.BasicNamed) (d : TypeDef) : (t.append d).1.BasicNamed :=
  h.later (.append d) rfl rfl rfl

theorem BasicNamed.register (h : t.BasicNamed) {d : TypeDef} {id : TypeId}
    (ht : t.register d = .ok (t', id)) : t'.BasicNamed := by
  rw [← (append_of_register ht).1]
  exact h.append d

theorem BasicNamed.shared (h : t.BasicNamed) {known : Option TypeId} {inner : TypeId}
    {d : TypeDef → TypeDef} {id : TypeId}
    (ht : (match known with
      | some id => .ok (t, id)
      | none => do
        let x ← t.get inner
        return t.append (d x)) = (.ok (t', id) : Except TypeError (TypeTable × TypeId))) :
    t'.BasicNamed := by
  rcases of_shared ht with ⟨-, rfl⟩ | ⟨-, x, -, rfl, -⟩
  · exact h
  · exact h.append (d x)

theorem BasicNamed.defineStruct (h : t.BasicNamed) {id : TypeId} {fields : List Field}
    (ht : t.defineStruct id fields = .ok t') : t'.BasicNamed := by
  have hheads := heads_of_defineStruct ht
  obtain ⟨d, -, -, -, rfl⟩ := of_defineStruct ht
  exact h.later (.of_heads hheads) rfl rfl rfl

theorem of_ensure {d : TypeDef} (hnominal : d.kind.isNominal = true)
    (keep : TypeTable → TypeId → TypeTable) {known : Option TypeId} {id : TypeId}
    (ht : (match known with
      | some id => .ok (t, id)
      | none => do
        let (s, i) ← t.register d
        return (keep s i, i)) = (.ok (t', id) : Except TypeError (TypeTable × TypeId))) :
    t' = t ∨ d.name ∈ (t.append d).1.names ∧ t' = keep (t.append d).1 (t.append d).2 := by
  cases known with
  | some i =>
    rw [Except.ok.injEq, Prod.mk.injEq] at ht
    exact .inl ht.1.symm
  | none =>
    obtain ⟨⟨s, i⟩, hs, hr⟩ := bind_eq_ok.1 ht
    rw [pure_eq_ok, Prod.mk.injEq] at hr
    refine .inr ⟨by simp [names_append, hnominal], ?_⟩
    rw [(append_of_register hs).1, (append_of_register hs).2]
    exact hr.1.symm

theorem Built.basicNamed (h : t.Built) : t.BasicNamed := by
  induction h with
  | empty => exact ⟨by simp, by simp, by simp⟩
  | newScalar _ ht ih => exact ih.register ht
  | newForeign _ ht ih => exact ih.register ht
  | declareStruct _ ht ih => exact ih.register ht
  | defineStruct _ ht ih => exact ih.defineStruct ht
  | newPointer _ ht ih => exact ih.shared ht
  | newReference _ ht ih => exact ih.shared ht
  | ensureInt _ ht ih =>
    rcases of_ensure rfl (fun s i => { s with intType := some i }) ht with rfl | ⟨hname, rfl⟩
    · exact ih
    · exact ⟨fun _ => hname, (ih.append _).bool, (ih.append _).unknown⟩
  | ensureBool _ ht ih =>
    rcases of_ensure rfl (fun s i => { s with boolType := some i }) ht with rfl | ⟨hname, rfl⟩
    · exact ih
    · exact ⟨(ih.append _).int, fun _ => hname, (ih.append _).unknown⟩
  | ensureUnknown _ ht ih =>
    rcases of_ensure rfl (fun s i => { s with unknownType := some i }) ht with rfl | ⟨hname, rfl⟩
    · exact ih
    · refine ⟨(ih.append _).int, (ih.append _).bool, fun hid => ⟨?_, hname⟩⟩
      rw [← Option.some.inj hid]
      exact contains_append _

end MovePlan.TypeTable
