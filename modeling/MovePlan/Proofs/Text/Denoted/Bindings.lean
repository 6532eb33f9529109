import MovePlan.Proofs.Text.Denoted.Blocks

set_option autoImplicit false

namespace MovePlan.Text
variable {file : Option String} {nominal : String → TypeDef} {w u : List TypeExpr}

theorem regionOf_cons (s : ScopeDecl) (scopes : List ScopeDecl) (name : String) : regionOf (s :: scopes) name =
    (regionOf scopes name).or (if s.name.text = name then some (s.blocks.map fun n => (n.value : ℤ)) else none) := by
  rw [regionOf, List.filter_cons]
  by_cases hname : s.name.text = name
  · rw [if_pos (decide_eq_true hname), if_pos hname, List.getLast?_cons, regionOf]
    cases (scopes.filter (·.name.text = name)).getLast? <;> rfl
  · rw [if_neg (by simpa using hname), if_neg hname, Option.or_none, regionOf]

def inScope (scopes : List ScopeDecl) (name : String) (x : Binding) : Binding :=
  { x with region := (regionOf scopes name).or x.region }

theorem run_buildScopes {scopes : List ScopeDecl} {f : Function} (b : Assembly)
    (hshort : Short (scopes.flatMap ScopeDecl.blocks))
    (hlocals : ∀ s ∈ scopes, ∃ x, f.binding? s.name.text = some x ∧ x.isParam = false ∧ x.captured = false) :
    buildScopes scopes f b = .ok ({ f with bindings := f.bindings.mapEntries (inScope scopes) }, b) := by
  induction scopes generalizing f with
  | nil =>
    have hbindings : f.bindings.mapEntries (inScope []) = f.bindings :=
      OrderedMap.ext_entries (List.map_id _)
    rw [hbindings]
    cases f
    rfl
  | cons s scopes ih =>
    rw [List.flatMap_cons] at hshort
    rw [List.forall_mem_cons] at hlocals
    obtain ⟨⟨x, hx, hparam, hcaptured⟩, hlocals⟩ := hlocals
    have hput := OrderedMap.put_eq_mapEntries hx fun y =>
      { y with region := some (s.blocks.map fun n => (n.value : ℤ)) }
    have hstep : ∀ name y, inScope (s :: scopes) name y = inScope scopes name
        (if name = s.name.text then { y with region := some (s.blocks.map fun n => (n.value : ℤ)) } else y) := by
      intro name y
      rw [inScope, regionOf_cons]
      by_cases hname : name = s.name.text
      · rw [if_pos hname, if_pos hname.symm, inScope, Option.or_assoc, Option.some_or]
      · rw [if_neg hname, if_neg (Ne.symm hname), Option.or_none, inScope]
    have hall : f.bindings.mapEntries (inScope (s :: scopes)) =
        (f.bindings.put s.name.text { x with region := some (s.blocks.map fun n => (n.value : ℤ)) }).mapEntries
          (inScope scopes) := by
      rw [hput, OrderedMap.mapEntries_mapEntries]
      exact congrArg (OrderedMap.mapEntries · f.bindings) (funext fun name => funext (hstep name))
    have hstill : ∀ t ∈ scopes, ∃ y, (f.bindings.put s.name.text
        { x with region := some (s.blocks.map fun n => (n.value : ℤ)) }).get? t.name.text = some y ∧
          y.isParam = false ∧ y.captured = false := by
      intro t ht
      rw [OrderedMap.get?_put]
      split
      · exact ⟨_, rfl, hparam, hcaptured⟩
      · exact hlocals t ht
    rw [buildScopes, hx, hall]
    dsimp only
    rw [if_neg (by rw [hparam, hcaptured]; decide)]
    exact run_bind.2 ⟨_, b, run_mapM_valueOf hshort.append.1 b, ih hshort.append.2 hstill⟩

theorem run_buildCaptures {parent : Option Function} {outer : OrderedMap String Binding} (span : Span)
    {captures : List String} {f : Function} (b : Assembly)
    (hparent : ∀ c ∈ captures, ∃ x, (parent.bind fun p => p.binding? c) = some x ∧ outer.get? c = some x) :
    buildCaptures parent span captures f b = .ok ({ f with
      bindings := f.bindings.putAll (captures.map fun c => (c, capturedBinding outer c)) }, b) := by
  induction captures generalizing f with
  | nil => cases f; rfl
  | cons c captures ih =>
    rw [List.forall_mem_cons] at hparent
    obtain ⟨⟨x, hx, houter⟩, hparent⟩ := hparent
    have hc : capturedBinding outer c = { name := c, type := x.type, captured := true } := by
      rw [capturedBinding, houter]
      rfl
    rw [buildCaptures, hx, List.map_cons, hc]
    exact ih hparent

theorem forwardsFrom_cons (index : ℕ) (p : Parameter) (params : List Parameter) :
    forwardsFrom index (p :: params) =
      (if p.forward then [(index : ℤ)] else []) ++ forwardsFrom (index + 1) params := by
  rw [forwardsFrom, List.zipIdx_cons, List.filter_cons]
  cases p.forward <;> rfl

theorem run_buildParam (file : Option String) (hn : Nominal nominal) (hw : Listed w) (index : ℕ) {p : Parameter}
    {f : Function} (hbase : namedType p.type.base ∈ u) (hu : grow u [p.type] <+: w)
    (hfresh : p.name.text ∉ f.bindings.keys)
    (hforward : p.forward = true → p.mode = some .moveRef) :
    buildParam index p f (stage file nominal w u) = .ok ({ f with
      bindings := f.bindings.put p.name.text (p.binding file w)
      params := f.params ++ [p.name.text]
      forwards := f.forwards ++ if p.forward then [(index : ℤ)] else [] },
        stage file nominal w (grow u [p.type])) := by
  have hnew : ¬ f.bindings.contains p.name.text = true := by
    rwa [OrderedMap.contains_iff]
  have hallowed : ¬ (p.forward && decide (p.mode.getD .value ≠ .moveRef)) = true := by
    rw [Bool.and_eq_true, not_and, decide_eq_true_iff, not_not]
    intro h
    rw [hforward h, Option.getD_some]
  have hforwards : f.forwards ++ (if p.forward then [(index : ℤ)] else []) =
      if p.forward then f.forwards ++ [(index : ℤ)] else f.forwards := by
    cases p.forward with
    | true => rfl
    | false => exact List.append_nil _
  refine run_bind.2 ⟨_, _, run_resolveType hn hw hbase hu, ?_⟩
  rw [if_neg hnew, hforwards]
  dsimp only
  rw [if_neg hallowed]
  rfl

theorem run_buildParams (hn : Nominal nominal) (hw : Listed w) (index : ℕ) {params : List Parameter} {f : Function}
    (hbases : ∀ t ∈ params.map Parameter.type, namedType t.base ∈ u) (hu : grow u (params.map Parameter.type) <+: w)
    (hnames : (params.map (·.name.text)).Nodup) (hfresh : ∀ p ∈ params, p.name.text ∉ f.bindings.keys)
    (hforward : ∀ p ∈ params, p.forward = true → p.mode = some .moveRef) :
    buildParams index params f (stage file nominal w u) = .ok ({ f with
      bindings := f.bindings.putAll (params.map fun p => (p.name.text, p.binding file w))
      params := f.params ++ params.map (·.name.text)
      forwards := f.forwards ++ forwardsFrom index params },
        stage file nominal w (grow u (params.map Parameter.type))) := by
  induction params generalizing u f index with
  | nil =>
    have hforwards : forwardsFrom index [] = [] := rfl
    rw [hforwards]
    simp only [List.map_nil, List.append_nil]
    cases f
    rfl
  | cons p params ih =>
    rw [List.map_cons, grow_cons] at hu
    rw [List.map_cons, List.forall_mem_cons] at hbases
    rw [List.map_cons, List.nodup_cons] at hnames
    rw [List.forall_mem_cons] at hfresh hforward
    have hgrown := (prefix_grow _ _).trans hu
    have hparam := run_buildParam file hn hw index hbases.1 hgrown hfresh.1 hforward.1
    have hrest := ih (index + 1) (f := { f with
      bindings := f.bindings.put p.name.text (p.binding file w)
      params := f.params ++ [p.name.text]
      forwards := f.forwards ++ if p.forward then [(index : ℤ)] else [] })
      (fun t ht => (prefix_grow _ _).subset (hbases.2 t ht)) hu hnames.2 (fun q hq hmem => ?_) hforward.2
    · simp only [List.map_cons, forwardsFrom_cons, ← List.append_assoc] at hrest ⊢
      rw [grow_cons, List.append_cons]
      exact run_bind.2 ⟨_, _, hparam, hrest⟩
    rw [OrderedMap.mem_keys_put] at hmem
    rcases hmem with hmem | hmem
    · exact hnames.1 (hmem ▸ List.mem_map_of_mem hq)
    · exact hfresh.2 q hq hmem

end MovePlan.Text
