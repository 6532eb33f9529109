import MovePlan.Proofs.Text.Denoted.Bindings

set_option autoImplicit false

namespace MovePlan.Text
variable {file : Option String} {nominal : String → TypeDef} {w u : List TypeExpr}

theorem map_fst_blocksFrom (target : String → Option BlockId) (id : ℕ) (next : ℤ) (bs : List BlockDecl) :
    (blocksFrom file w target id next bs).map Prod.fst = bs.map fun b => (b.id.value : ℤ) := by
  induction bs generalizing id next with
  | nil => rfl
  | cons b bs ih => rw [blocksFrom, List.map_cons, List.map_cons, ih]

theorem filterMap_statementsOf {β : Type} (g : Statement → Option β) (bs : List BlockDecl) :
    (statementsOf bs).filterMap g = bs.flatMap fun b => b.body.filterMap g := by
  rw [statementsOf, List.filterMap_flatMap]

theorem declarations_eq (bs : List BlockDecl) :
    declarations bs = (statementsOf bs).filterMap Statement.declared? :=
  (filterMap_statementsOf _ _).symm

def ownBindings (file : Option String) (w : List TypeExpr) (outer : OrderedMap String Binding)
    (params : List Parameter) (captures : List String) (body : Members) : List (String × Binding) :=
  captures.map (fun c => (c, capturedBinding outer c)) ++ params.map (fun p => (p.name.text, p.binding file w)) ++
    localsOf file w (statementsOf body.blocks)

theorem map_fst_ownBindings (outer : OrderedMap String Binding) (params : List Parameter) (captures : List String)
    (body : Members) : (ownBindings file w outer params captures body).map Prod.fst =
      captures ++ ownNames params body := by
  rw [ownBindings, List.map_append, List.map_append, map_fst_localsOf, ← declarations_eq, ownNames,
    List.append_assoc]
  simp [Function.comp_def]

theorem regionOf_eq_none {scopes : List ScopeDecl} {name : String} (h : ∀ s ∈ scopes, s.name.text ≠ name) :
    regionOf scopes name = none := by
  have hnone : scopes.filter (·.name.text = name) = [] :=
    List.filter_eq_nil_iff.2 fun s hs => by simpa using h s hs
  rw [regionOf, hnone]
  rfl

theorem inScope_ownBindings {outer : OrderedMap String Binding} {names : List String} {params : List Parameter}
    {captures : List String} {body : Members} (h : Proper names params captures body) :
    (ownBindings file w outer params captures body).map (fun e => (e.1, inScope body.scopes e.1 e.2)) =
      captures.map (fun c => (c, capturedBinding outer c)) ++
        params.map (fun p => (p.name.text, p.binding file w)) ++
        (declarations body.blocks).map fun d => (d.1, localBinding file w body.scopes d) := by
  have hdistinct := h.distinct
  rw [ownNames, List.nodup_append] at hdistinct
  have hlocals : ∀ d, inScope body.scopes d.1 (localBinding file w [] d) = localBinding file w body.scopes d := by
    intro d
    rw [inScope, localBinding, localBinding]
    cases regionOf body.scopes d.1 <;> rfl
  rw [ownBindings, List.map_append, List.map_append, localsOf, ← declarations_eq, List.map_map, List.map_map,
    List.map_map]
  refine congrArg₂ _ (congrArg₂ _ (List.map_congr_left fun c hc => ?_) (List.map_congr_left fun p hp => ?_))
    (List.map_congr_left fun d _ => Prod.ext rfl (hlocals d))
  · have hnone : regionOf body.scopes c = none := by
      refine regionOf_eq_none fun s hs heq => ?_
      have hown : c ∈ ownNames params body := heq ▸ List.mem_append_right _ (h.scopes s hs)
      exact h.fresh c hown hc
    refine Prod.ext rfl ?_
    change inScope body.scopes c (capturedBinding outer c) = capturedBinding outer c
    rw [inScope, hnone]
    rfl
  · have hnone : regionOf body.scopes p.name.text = none := by
      refine regionOf_eq_none fun s hs heq => ?_
      exact hdistinct.2.2 _ (List.mem_map_of_mem hp) _ (heq ▸ h.scopes s hs) rfl
    refine Prod.ext rfl ?_
    change inScope body.scopes p.name.text (p.binding file w) = p.binding file w
    rw [inScope, hnone]
    rfl

theorem lastBlock_eq {f : Function} {bs : List BlockDecl} (h : f.blocks.entries = bs.map (blank file)) :
    lastBlock f + 1 = firstMissing bs := by
  rw [lastBlock, OrderedMap.keys, h, List.map_map]
  rfl

theorem exists_local (outer : OrderedMap String Binding) {names : List String} {params : List Parameter}
    {captures : List String} {body : Members} (h : Proper names params captures body) {s : ScopeDecl}
    (hs : s ∈ body.scopes) :
    ∃ x, (OrderedMap.ofList (ownBindings file w outer params captures body)).get? s.name.text = some x ∧
      x.isParam = false ∧ x.captured = false := by
  have hmem := h.scopes s hs
  rw [declarations_eq, ← map_fst_localsOf file w] at hmem
  obtain ⟨⟨key, y⟩, hy, rfl⟩ := List.mem_map.1 hmem
  obtain ⟨x, hx⟩ := exists_lastWrite hy
  refine ⟨x, ?_, ?_⟩
  · rw [OrderedMap.get?_ofList, ownBindings, lastWrite, List.foldl_append, foldl_lastWrite, hx, Option.some_or]
  · obtain ⟨d, -, hd⟩ := List.mem_map.1 (mem_of_lastWrite hx)
    obtain rfl := (Prod.ext_iff.1 hd).2
    exact ⟨rfl, rfl⟩

/-- A function with its captured names and its parameters. -/
def headed (file : Option String) (w : List TypeExpr) (outer : OrderedMap String Binding) (name : Name)
    (params : List Parameter) (captures : List String) (span : Span) : Function where
  name := name.text
  bindings := .ofList (captures.map (fun c => (c, capturedBinding outer c)) ++
    params.map fun p => (p.name.text, p.binding file w))
  params := params.map (·.name.text)
  forwards := forwardsFrom 0 params
  captures := captures
  span := span.withFile file

def opened (file : Option String) (w : List TypeExpr) (outer : OrderedMap String Binding) (name : Name)
    (params : List Parameter) (captures : List String) (body : Members) (span : Span) : Function :=
  { headed file w outer name params captures span with
    entry := (body.blocks.head?.map fun b => (b.id.value : ℤ)).getD 0
    blocks := .ofList (body.blocks.map (blank file)) }

def unscoped (file : Option String) (w : List TypeExpr) (outer : OrderedMap String Binding) (name : Name)
    (params : List Parameter) (captures : List String) (body : Members) (span : Span) : Function :=
  { opened file w outer name params captures body span with
    blocks := .ofList (blocksFrom file w (labelTarget body.blocks) 0 (firstMissing body.blocks) body.blocks)
    bindings := .ofList (ownBindings file w outer params captures body) }

section
variable {outer : OrderedMap String Binding} {names : List String} (name : Name) {params : List Parameter}
  {captures : List String} {body : Members} (span : Span)

theorem run_headed (file : Option String) (hn : Nominal nominal) (hw : Listed w) {parent : Option Function}
    (h : Proper names params captures body)
    (hparent : ∀ c ∈ captures, ∃ x, (parent.bind fun p => p.binding? c) = some x ∧ outer.get? c = some x)
    (hbases : ∀ t ∈ params.map Parameter.type, namedType t.base ∈ u)
    (hu : grow u (params.map Parameter.type) <+: w) :
    (do
      let f ← buildCaptures parent span captures
        { name := name.text, span := span.withFile file, captures := captures }
      buildParams 0 params f) (stage file nominal w u) =
      .ok (headed file w outer name params captures span,
        stage file nominal w (grow u (params.map Parameter.type))) := by
  rw [headed, OrderedMap.ofList_append]
  refine run_bind.2 ⟨_, _, run_buildCaptures span _ hparent,
    run_buildParams hn hw 0 hbases hu (List.nodup_append.1 h.distinct).1 (fun p hp hmem => ?_) h.forward⟩
  rw [OrderedMap.mem_keys_putAll, List.map_map] at hmem
  obtain ⟨c, hc, heq⟩ := List.mem_map.1 (hmem.resolve_left List.not_mem_nil)
  exact h.fresh p.name.text (List.mem_append_left _ (List.mem_map_of_mem hp)) (heq ▸ hc)

theorem nodup_blank (file : Option String) (h : Proper names params captures body) :
    ((body.blocks.map (blank file)).map Prod.fst).Nodup := by
  have hids := h.blocks.map (f := fun n : ℕ => (n : ℤ)) Nat.cast_injective
  rw [List.map_map] at hids ⊢
  exact hids

theorem run_opened (h : Proper names params captures body) (hshort : Short (body.blocks.map BlockDecl.id)) :
    openBlocks body.blocks (headed file w outer name params captures span) [] (stage file nominal w u) =
      .ok (({ headed file w outer name params captures span with blocks := .ofList (body.blocks.map (blank file)) },
        labelsOf body.blocks, body.blocks.map fun d => ((d.id.value : ℤ), d.body)), stage file nominal w u) := by
  have hids := nodup_blank file h
  rw [List.map_map] at hids
  have hlabels : (([] ++ labelsOf body.blocks).map Prod.fst).Nodup := by
    rw [List.nil_append, map_fst_labelsOf]
    exact h.labels
  exact run_openBlocks _ hshort hids (fun _ _ => List.not_mem_nil) hlabels

theorem run_unscoped (file : Option String) (outer : OrderedMap String Binding) (hn : Nominal nominal)
    (hw : Listed w) (h : Proper names params captures body)
    (hshort : Short ((statementsOf body.blocks).flatMap Statement.numerals))
    (hbases : ∀ t ∈ (statementsOf body.blocks).filterMap Statement.type?, namedType t.base ∈ u)
    (hu : grow u ((statementsOf body.blocks).filterMap Statement.type?) <+: w) :
    ∃ filled, fillBlocks (body.blocks.map fun d => ((d.id.value : ℤ), d.body))
        { function := opened file w outer name params captures body span, labels := labelsOf body.blocks
          nextSite := 0, nextDangling := lastBlock (opened file w outer name params captures body span) + 1 }
        (stage file nominal w u) =
          .ok (filled, stage file nominal w (grow u ((statementsOf body.blocks).filterMap Statement.type?))) ∧
      filled.function = unscoped file w outer name params captures body span := by
  have hdistinct := h.distinct
  rw [ownNames, List.nodup_append, declarations_eq] at hdistinct
  have hblocks : (opened file w outer name params captures body span).blocks.entries =
      body.blocks.map (blank file) :=
    OrderedMap.entries_ofList (nodup_blank file h)
  have hfresh : ∀ d ∈ (statementsOf body.blocks).filterMap Statement.declared?,
      d.1 ∉ (opened file w outer name params captures body span).bindings.keys := by
    intro d hd hmem
    change d.1 ∈ (OrderedMap.ofList _).keys at hmem
    rw [OrderedMap.keys_ofList, List.map_append, List.map_map, List.map_map, List.mem_append] at hmem
    rcases hmem with hmem | hmem
    · obtain ⟨c, hc, heq⟩ := List.mem_map.1 hmem
      exact h.fresh d.1 (List.mem_append_right _ (declarations_eq body.blocks ▸ List.mem_map_of_mem hd)) (heq ▸ hc)
    · exact hdistinct.2.2 _ hmem _ (List.mem_map_of_mem hd) rfl
  obtain ⟨filled, blocks, hfill, hfilled, hentries⟩ := run_fillBlocks file hn hw
    { function := opened file w outer name params captures body span, labels := labelsOf body.blocks
      nextSite := 0, nextDangling := lastBlock (opened file w outer name params captures body span) + 1 }
    (show _ = [] ++ _ from hblocks) ⟨hshort, hbases, hu, hdistinct.2.1, hfresh⟩
  refine ⟨filled, hfill, ?_⟩
  have hnodup : ((blocksFrom file w (labelTarget body.blocks) 0 (firstMissing body.blocks) body.blocks).map
      Prod.fst).Nodup := by
    rw [map_fst_blocksFrom]
    simpa [Function.comp_def, blank] using nodup_blank file h
  have htargets : (fun label => lastWrite label (labelsOf body.blocks)) = labelTarget body.blocks :=
    funext (lastWrite_labelsOf h.labels)
  have hsame : blocks = .ofList
      (blocksFrom file w (labelTarget body.blocks) 0 (firstMissing body.blocks) body.blocks) := by
    apply OrderedMap.ext_entries
    rw [hentries, OrderedMap.entries_ofList hnodup, List.nil_append, htargets, lastBlock_eq hblocks]
  rw [hfilled, hsame, unscoped, ownBindings, OrderedMap.ofList_append]
  rfl

theorem run_buildBody (file : Option String) (hn : Nominal nominal) (hw : Listed w) {parent : Option Function}
    (h : Proper names params captures body)
    (hshort : Short body.numerals)
    (hparent : ∀ c ∈ captures, ∃ x, (parent.bind fun p => p.binding? c) = some x ∧ outer.get? c = some x)
    (hbases : ∀ t ∈ ownTypes params body, namedType t.base ∈ u) (hu : grow u (ownTypes params body) <+: w) :
    buildBody parent name params captures body span (stage file nominal w u) =
      .ok (bodyOf file w outer name params captures body span,
        stage file nominal w (grow u (ownTypes params body))) := by
  rw [ownTypes, List.forall_mem_append, ← filterMap_statementsOf] at hbases
  rw [ownTypes, grow_append, ← filterMap_statementsOf] at hu ⊢
  have hstatements : Short ((statementsOf body.blocks).flatMap Statement.numerals) := by
    rw [statementsOf, List.flatMap_assoc]
    exact hshort.append.1.append.2
  obtain ⟨filled, hfill, hfilled⟩ := run_unscoped name span file outer hn hw h hstatements
    (fun t ht => (prefix_grow _ _).subset (hbases.2 t ht)) hu
  have hheaded := run_headed name span file hn hw h hparent hbases.1 ((prefix_grow _ _).trans hu)
  obtain ⟨g, b, hcaptures, hparams⟩ := run_bind.1 hheaded
  have hlocals : ∀ s ∈ body.scopes, ∃ x, filled.function.binding? s.name.text = some x ∧ x.isParam = false ∧
      x.captured = false := by
    intro s hs
    rw [hfilled]
    exact exists_local outer h hs
  refine run_bind.2 ⟨_, _, run_spanInFile.2 ⟨rfl, rfl⟩, run_bind.2 ⟨_, _, hcaptures, run_bind.2 ⟨_, _, hparams,
    run_bind.2 ⟨_, _, run_opened name span h hshort.append.1.append.1, run_bind.2 ⟨filled,
      stage file nominal w (grow (grow u (params.map Parameter.type))
        ((statementsOf body.blocks).filterMap Statement.type?)), ?_,
      (run_buildScopes _ hshort.append.2 hlocals).trans ?_⟩⟩⟩⟩⟩
  · refine Eq.trans ?_ hfill
    dsimp only
    rw [opened]
    cases body.blocks <;> rfl
  · rw [hfilled, unscoped, bodyOf, OrderedMap.mapEntries_ofList, inScope_ownBindings h]
    rfl

end

end MovePlan.Text
