import MovePlan.Proofs.Text.Denoted.Bodies

set_option autoImplicit false

namespace MovePlan.Text
variable {file : Option String} {nominal : String → TypeDef} {w u : List TypeExpr}

theorem exists_binding {outer : OrderedMap String Binding} {names : List String} {name : Name}
    {params : List Parameter} {captures : List String} {body : Members} {span : Span}
    (h : Proper names params captures body) : ∀ c ∈ captures ++ ownNames params body,
      ∃ x, (bodyOf file w outer name params captures body span).bindings.get? c = some x := by
  intro c hc
  rw [← Option.isSome_iff_exists]
  change (bodyOf file w outer name params captures body span).bindings.contains c = true
  rw [OrderedMap.contains_iff, bodyOf, ← inScope_ownBindings h, OrderedMap.keys_ofList, List.map_map]
  exact (map_fst_ownBindings outer params captures body).symm ▸ hc

mutual

theorem run_buildFunction (file : Option String) (hn : Nominal nominal) (hw : Listed w) {u : List TypeExpr}
    {parent : Option Function} {outer : OrderedMap String Binding} {names : List String} (f : FunctionDecl)
    (h : f.WellScoped names) (hshort : Short f.numerals)
    (hparent : ∀ c ∈ names, ∃ x, (parent.bind fun p => p.binding? c) = some x ∧ outer.get? c = some x)
    (hbases : ∀ t ∈ f.types, namedType t.base ∈ u) (hu : grow u f.types <+: w) :
    buildFunction parent f (stage file nominal w u) =
      .ok (f.function file w outer, stage file nominal w (grow u f.types)) := by
  cases f with
  | mk name params captures body span =>
    obtain ⟨hproper, hnested⟩ := h
    rw [FunctionDecl.types, List.forall_mem_append] at hbases
    rw [FunctionDecl.types, grow_append] at hu ⊢
    have hbody := run_buildBody name span file hn hw hproper hshort.append.1
      (fun c hc => hparent c (hproper.known c hc)) hbases.1 ((prefix_grow _ _).trans hu)
    have hinner := run_buildNested file hn hw
      (bodyOf file w outer name params captures body span) body hnested hshort.append.2 (exists_binding hproper)
      (fun t ht => (prefix_grow _ _).subset (hbases.2 t ht)) hu
    exact run_bind.2 ⟨_, _, hbody, run_bind.2 ⟨_, _, hinner, rfl⟩⟩

theorem run_buildNested (file : Option String) (hn : Nominal nominal) (hw : Listed w) {u : List TypeExpr}
    (parent : Function) {names : List String} (body : Members) (h : body.WellScoped names)
    (hshort : Short body.nestedNumerals)
    (hparent : ∀ c ∈ names, ∃ x, parent.bindings.get? c = some x)
    (hbases : ∀ t ∈ body.nestedTypes, namedType t.base ∈ u) (hu : grow u body.nestedTypes <+: w) :
    buildNested parent body (stage file nominal w u) =
      .ok (body.nestedFunctions file w parent.bindings, stage file nominal w (grow u body.nestedTypes)) := by
  cases body with
  | nil => rfl
  | block b rest => exact run_buildNested file hn hw parent rest h hshort hparent hbases hu
  | scope s rest => exact run_buildNested file hn hw parent rest h hshort hparent hbases hu
  | nested f rest =>
    rw [Members.nestedTypes, List.forall_mem_append] at hbases
    rw [Members.nestedTypes, grow_append] at hu ⊢
    have hsees : ∀ c ∈ names, ∃ x, ((some parent).bind fun p => p.binding? c) = some x ∧
        parent.bindings.get? c = some x := by
      intro c hc
      obtain ⟨x, hx⟩ := hparent c hc
      exact ⟨x, hx, hx⟩
    have hinner := run_buildFunction file hn hw f h.1 hshort.append.1 hsees hbases.1
      ((prefix_grow _ _).trans hu)
    have hothers := run_buildNested file hn hw parent rest h.2 hshort.append.2 hparent
      (fun t ht => (prefix_grow _ _).subset (hbases.2 t ht)) hu
    exact run_bind.2 ⟨_, _, hinner, run_bind.2 ⟨_, _, hothers, rfl⟩⟩

end

theorem FunctionDecl.name_function (file : Option String) (w : List TypeExpr) (outer : OrderedMap String Binding)
    (f : FunctionDecl) : (f.function file w outer).name = f.name.text := by
  cases f
  rfl

theorem run_buildFunctions (file : Option String) (hn : Nominal nominal) (hw : Listed w) {seen : List String}
    {ds : List Declaration} (hnames : ((outerFunctions ds).map (·.name.text)).Nodup)
    (hseen : ∀ f ∈ outerFunctions ds, f.name.text ∉ seen)
    (hscoped : ∀ f ∈ outerFunctions ds, f.WellScoped []) (hshort : Short (numerals ds))
    (hbases : ∀ t ∈ (outerFunctions ds).flatMap FunctionDecl.types, namedType t.base ∈ u)
    (hu : grow u ((outerFunctions ds).flatMap FunctionDecl.types) <+: w) :
    buildFunctions seen ds (stage file nominal w u) =
      .ok ((outerFunctions ds).map (FunctionDecl.function file w .empty),
        stage file nominal w (grow u ((outerFunctions ds).flatMap FunctionDecl.types))) := by
  induction ds generalizing u seen with
  | nil => rfl
  | cons d ds ih =>
    cases d with
    | type => exact ih hnames hseen hscoped hshort hbases hu
    | struct => exact ih hnames hseen hscoped hshort hbases hu
    | function f =>
      have hsplit : outerFunctions (.function f :: ds) = f :: outerFunctions ds := rfl
      rw [numerals, hsplit, List.flatMap_cons] at hshort
      rw [hsplit, List.map_cons, List.nodup_cons] at hnames
      rw [hsplit, List.forall_mem_cons] at hseen hscoped
      rw [hsplit, List.flatMap_cons, List.forall_mem_append] at hbases
      rw [hsplit, List.flatMap_cons, grow_append] at hu ⊢
      have hnone : ∀ c ∈ ([] : List String), ∃ x, ((none : Option Function).bind fun p => p.binding? c) = some x ∧
          OrderedMap.empty.get? c = some x := fun _ hc => absurd hc List.not_mem_nil
      have hfunction := run_buildFunction file hn hw f hscoped.1 hshort.append.1 hnone hbases.1
        ((prefix_grow _ _).trans hu)
      have hlater : ∀ g ∈ outerFunctions ds, g.name.text ∉ (f.function file w .empty).name :: seen := by
        intro g hg hmem
        rw [f.name_function] at hmem
        rcases List.mem_cons.1 hmem with heq | hmem
        · exact hnames.1 (heq ▸ List.mem_map_of_mem hg)
        · exact hseen.2 g hg hmem
      have hothers := ih hnames.2 hlater hscoped.2 hshort.append.2
        (fun t ht => (prefix_grow _ _).subset (hbases.2 t ht)) hu
      refine run_bind.2 ⟨_, _, hfunction, ?_⟩
      rw [if_neg (f.name_function file w .empty ▸ hseen.1)]
      exact run_bind.2 ⟨_, _, hothers, rfl⟩

end MovePlan.Text
