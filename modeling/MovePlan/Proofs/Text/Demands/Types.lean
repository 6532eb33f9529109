import MovePlan.Proofs.Text.Demands.Steps

set_option autoImplicit false

namespace MovePlan.Text
variable {ns : Names} {b : Assembly}

theorem meets_resolveType (e : TypeExpr) (hready : Ready ns b.table) :
    Meets ns e.demands (resolveType e) b fun id t => t.contains id = true := by
  induction e with
  | named name =>
    have hlookup : Meets ns [] (lookupType name.text) b fun r _ => r = b.table.lookup name.text :=
      .of_same rfl rfl hready rfl
    refine hlookup.after fun known b' hready' hlater hknown => ?_
    subst hknown
    cases hname : b.table.lookup name.text with
    | some id =>
      have hmem : name.text ∈ b.table.names := TypeTable.lookup_isSome_iff.1 (by rw [hname]; rfl)
      have hnone : ns.firstFault [.type name.text] = none := by
        rw [Names.firstFault_singleton, Names.fault?, if_neg]
        rintro ⟨hfresh, hclash⟩
        rw [hready.fresh _ hmem hfresh] at hclash
        cases hclash
      rw [TypeExpr.demands, Meets, hnone]
      exact ⟨id, b', rfl, hready', .refl _, hlater.contains (TypeTable.contains_of_lookup hname)⟩
    | none =>
      -- a name that is not in the table asks for `Unknown`
      have hmem : name.text ∉ ns.known := fun h =>
        TypeTable.lookup_eq_none_iff.1 hname (hready.known _ h)
      have hsame : ns.firstFault [.type name.text] = ns.firstFault [.unknown] := by
        simp [Names.firstFault_singleton, Names.fault?, hmem]
      have hunknown : Meets ns [.unknown] (do
          reportAs "typemodel" "E_UNKNOWN_TYPE" s!"unknown type '{name.text}'" name.span
          onTable TypeTable.ensureUnknown) b' fun id t => t.contains id = true :=
        (Meets.reportAs hready').after fun _ _ h _ _ => .unknown h
      rw [Meets] at hunknown
      rw [TypeExpr.demands, Meets, hsame]
      exact hunknown
  | pointer inner ih =>
    refine ih.before fun id b' hready' _ hid => ?_
    obtain ⟨t', pointer, hnew, hshares, hpointer⟩ := TypeTable.exists_newPointer hid
    exact .onTable hnew (hready'.shares hshares) hshares.later hpointer
  | reference isMut inner ih =>
    refine ih.before fun id b' hready' _ hid => ?_
    obtain ⟨t', reference, hnew, hshares, hreference⟩ := TypeTable.exists_newReference hid
    exact .onTable hnew (hready'.shares hshares) hshares.later hreference

/-- The fields have distinct names that were not seen before, and types of the table. -/
def FieldsFit (seen : List String) (fields : List Field) (t : TypeTable) : Prop :=
  (fields.map (·.name)).Nodup ∧ ∀ x ∈ fields, x.name ∉ seen ∧ t.contains x.type = true

theorem meets_resolveFields (struct : String) (seen : List String) (fields : List FieldDecl)
    (hready : Ready ns b.table) :
    Meets ns (fieldDemands seen fields) (resolveFields struct seen fields) b (FieldsFit seen) := by
  induction fields generalizing seen b with
  | nil => exact .pure hready ⟨List.nodup_nil, by simp⟩
  | cons f rest ih =>
    rw [resolveFields, fieldDemands]
    split
    next => exact (Meets.report hready).after fun _ _ h _ _ => ih seen h
    next hnew =>
      refine (meets_resolveType f.type hready).bind fun id b₁ hready₁ _ hid => ?_
      refine (ih _ hready₁).before fun others b₂ hready₂ hlater hothers => .pure hready₂ ⟨?_, ?_⟩
      · refine List.nodup_cons.2 ⟨fun hmem => ?_, hothers.1⟩
        obtain ⟨x, hx, hname⟩ := List.mem_map.1 hmem
        exact (hothers.2 x hx).1 (List.mem_cons.2 (.inl hname))
      · refine List.forall_mem_cons.2 ⟨⟨hnew, hlater.contains hid⟩, fun x hx => ?_⟩
        exact ⟨fun h => (hothers.2 x hx).1 (List.mem_cons_of_mem _ h), (hothers.2 x hx).2⟩

theorem meets_defineStructs (structs : List PendingStruct) (hready : Ready ns b.table)
    (hstructs : ∀ s ∈ structs, b.table.kind? s.id = some .struct) :
    Meets ns (structs.flatMap fun s => fieldDemands [] s.fields) (defineStructs structs) b
      fun _ _ => True := by
  induction structs generalizing b with
  | nil => exact .pure hready trivial
  | cons s rest ih =>
    rw [List.flatMap_cons]
    refine (meets_resolveFields s.name [] s.fields hready).bind fun fields b₁ hready₁ hlater hfields => ?_
    rw [List.forall_mem_cons] at hstructs
    obtain ⟨t', hdefine, hshares⟩ := TypeTable.exists_defineStruct (hlater.kind? hstructs.1) hfields.1
      fun x hx => (hfields.2 x hx).2
    have hop : (do return (← b₁.table.defineStruct s.id fields, ()) :
        Except TypeError (TypeTable × Unit)) = .ok (t', ()) := by
      rw [hdefine]
      rfl
    have hdefined : Meets ns [] (onTable fun t => do return (← t.defineStruct s.id fields, ())) b₁
        fun _ _ => True := .onTable hop (hready₁.shares hshares) hshares.later trivial
    refine hdefined.after fun _ b₂ hready₂ hlater₂ _ => ih hready₂ fun x hx => ?_
    exact hlater₂.kind? (hlater.kind? (hstructs.2 x hx))

/-- What the declarations of types leave, where `names` are the names that they declare. -/
structure DeclaredIn (names : List String) (t t' : TypeTable) : Prop where
  names : ∀ n, n ∈ t'.names ↔ n ∈ t.names ∨ n ∈ names
  unknownType : t'.unknownType = t.unknownType
  later : t.Later t'

theorem DeclaredIn.trans {names names' : List String} {t t' t'' : TypeTable} (h : DeclaredIn names t t')
    (h' : DeclaredIn names' t' t'') : DeclaredIn (names ++ names') t t'' where
  names n := by rw [h'.names, h.names, List.mem_append, or_assoc]
  unknownType := h'.unknownType.trans h.unknownType
  later := h.later.trans h'.later

theorem declaredIn_append {t : TypeTable} {d : TypeDef} (hd : d.kind.isNominal = true) :
    DeclaredIn [d.name] t (t.append d).1 where
  names n := by rw [TypeTable.names_append, if_pos hd, List.mem_append]
  unknownType := rfl
  later := .append d

theorem exists_declareNew (name : Name) (register : TypeTable → Except TypeError (TypeTable × TypeId))
    {d : TypeDef} (hregister : ∀ t, register t = t.register d) (hname : d.name = name.text)
    (hd : d.kind.isNominal = true) (b : Assembly) :
    ∃ id b', declareNew name register b = .ok (id, b') ∧ DeclaredIn [name.text] b.table b'.table ∧
      (name.text ∈ b.table.names → id = none) ∧
      (name.text ∉ b.table.names → ∃ new, id = some new ∧ b'.table.kind? new = some d.kind) := by
  have hrun : declareNew name register b = (if (b.table.lookup name.text).isSome then do
      report "E_DUPLICATE_TYPE" s!"type '{name.text}' is declared more than once" name.span
      return none
    else return some (← onTable register) : Assemble (Option TypeId)) b := rfl
  rw [hrun]
  by_cases htaken : name.text ∈ b.table.names
  · rw [if_pos (TypeTable.lookup_isSome_iff.2 htaken)]
    refine ⟨none, _, rfl, ⟨fun n => ?_, rfl, .refl _⟩, fun _ => rfl, fun h => absurd htaken h⟩
    rw [List.mem_singleton, iff_self_or]
    rintro rfl
    exact htaken
  · rw [if_neg (mt TypeTable.lookup_isSome_iff.1 htaken)]
    have hadds := declaredIn_append (t := b.table) hd
    rw [hname] at hadds
    refine ⟨some (b.table.append d).2, { b with table := (b.table.append d).1 }, ?_, hadds,
      fun h => absurd h htaken, fun _ => ⟨_, rfl, TypeTable.kind?_append d⟩⟩
    have hon : onTable register b = .ok ((b.table.append d).2, { b with table := (b.table.append d).1 }) := by
      have h : onTable register b =
          (liftType (register b.table) >>= fun p => .ok (p.2, { b with table := p.1 })) := rfl
      rw [h, hregister, TypeTable.register_eq_ok (by rwa [hname])]
      rfl
    change (onTable register b >>= fun p => _) = _
    rw [hon]
    rfl

/-- Declaring types never fails. Every struct whose name is new awaits its fields. -/
theorem exists_declareTypes (ds : List Declaration) {taken : List String} {b : Assembly}
    (htaken : ∀ n, n ∈ taken ↔ n ∈ b.table.names) :
    ∃ structs b', declareTypes ds b = .ok (structs, b') ∧ structs.map (·.fields) = newStructs taken ds ∧
      DeclaredIn (declaredNames ds) b.table b'.table ∧
      ∀ s ∈ structs, b'.table.kind? s.id = some .struct := by
  induction ds generalizing taken b with
  | nil => exact ⟨[], b, rfl, rfl, ⟨by simp [declaredNames], rfl, .refl _⟩, by simp⟩
  | cons d rest ih =>
    have hnext : ∀ {name : String} {t : TypeTable}, DeclaredIn [name] b.table t →
        ∀ n, n ∈ name :: taken ↔ n ∈ t.names := by
      intro name t h n
      rw [h.names, List.mem_cons, htaken, List.mem_singleton, or_comm]
    cases d with
    | type name isScalar attributes span =>
      obtain ⟨ops, hops⟩ : ∃ ops, userOps attributes span b = .ok (ops, b) := ⟨_, rfl⟩
      obtain ⟨id, b₁, hnew, hadds, _, _⟩ := exists_declareNew name
        (fun t => if isScalar then t.newScalar name.text else t.newForeign name.text ops)
        (d := if isScalar then { kind := .scalar, name := name.text }
          else { kind := .foreign, name := name.text, ops := ops })
        (fun t => by cases isScalar <;> rfl) (by cases isScalar <;> rfl) (by cases isScalar <;> rfl) b
      obtain ⟨structs, b₂, hrest, hfields, hdeclared, hkinds⟩ := ih (hnext hadds)
      exact ⟨structs, b₂, run_bind.2 ⟨ops, b, hops, run_bind.2 ⟨id, b₁, hnew, hrest⟩⟩, hfields,
        hadds.trans hdeclared, hkinds⟩
    | struct name attributes fields span =>
      obtain ⟨ops, hops⟩ : ∃ ops, userOps attributes span b = .ok (ops, b) := ⟨_, rfl⟩
      obtain ⟨id, b₁, hnew, hadds, hold, hfresh⟩ := exists_declareNew name
        (fun t => t.declareStruct name.text ops)
        (d := { kind := .struct, name := name.text, ops := ops }) (fun _ => rfl) rfl rfl b
      by_cases hname : name.text ∈ taken
      · obtain rfl := hold ((htaken _).1 hname)
        have hsame : ∀ n, n ∈ taken ↔ n ∈ b₁.table.names := by
          intro n
          rw [← hnext hadds, List.mem_cons, iff_or_self]
          rintro rfl
          exact hname
        obtain ⟨structs, b₂, hrest, hfields, hdeclared, hkinds⟩ := ih hsame
        refine ⟨structs, b₂, run_bind.2 ⟨ops, b, hops, run_bind.2 ⟨none, b₁, hnew,
          run_bind.2 ⟨structs, b₂, hrest, rfl⟩⟩⟩, ?_, hadds.trans hdeclared, hkinds⟩
        rw [newStructs, if_pos hname]
        exact hfields
      · obtain ⟨new, rfl, hkind⟩ := hfresh (mt (htaken _).2 hname)
        obtain ⟨structs, b₂, hrest, hfields, hdeclared, hkinds⟩ := ih (hnext hadds)
        refine ⟨{ id := new, name := name.text, fields := fields } :: structs, b₂,
          run_bind.2 ⟨ops, b, hops, run_bind.2 ⟨some new, b₁, hnew,
            run_bind.2 ⟨structs, b₂, hrest, rfl⟩⟩⟩, ?_, hadds.trans hdeclared, ?_⟩
        · rw [newStructs, if_neg hname, List.map_cons, hfields]
        · exact List.forall_mem_cons.2 ⟨hdeclared.later.kind? hkind, hkinds⟩
    | function f =>
      obtain ⟨structs, b₂, hrest, hfields, hdeclared, hkinds⟩ := ih htaken
      exact ⟨structs, b₂, hrest, hfields, hdeclared, hkinds⟩

end MovePlan.Text
