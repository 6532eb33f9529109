import MovePlan.Proofs.Flow.Events
import MovePlan.Proofs.Lowering.Simulation
import MovePlan.Proofs.Plan.Storage

set_option autoImplicit false

namespace MovePlan

theorem pair_sublist_of_ne {α : Type} {a b : α} {xs : List α} (ha : a ∈ xs) (hb : b ∈ xs) (hne : a ≠ b) :
    [a, b].Sublist xs ∨ [b, a].Sublist xs := by
  obtain ⟨before, after, rfl⟩ := List.append_of_mem ha
  rcases List.mem_append.1 hb with hb | hb
  · exact .inr ((List.singleton_sublist.2 hb).append (List.singleton_sublist.2 List.mem_cons_self))
  · have hafter : b ∈ after := (List.mem_cons.1 hb).resolve_left hne.symm
    exact .inl (((List.singleton_sublist.2 hafter).cons_cons a).trans (List.sublist_append_right _ _))

/-- Sites are listed block by block, in increasing order. -/
def Site.StandsBefore (s t : Site) : Prop := s.block < t.block ∨ s.block = t.block ∧ s.index < t.index

theorem Site.StandsBefore.asymm {s t : Site} (h : s.StandsBefore t) : ¬ t.StandsBefore s := by
  rintro (h' | ⟨heq, h'⟩)
  · rcases h with h | ⟨heq, -⟩
    · exact Int.lt_asymm h h'
    · exact Int.lt_irrefl _ (heq ▸ h')
  · rcases h with h | ⟨-, h⟩
    · exact Int.lt_irrefl _ (heq ▸ h)
    · exact Int.lt_asymm h h'

namespace Function
variable {f : Function} {n n' : String} {s t : Site}

theorem pairwise_allSites (wf : f.WellFormed) : f.allSites.Pairwise Site.StandsBefore := by
  have hat : ∀ {x : BlockId × Block}, x ∈ f.sortedBlocks → x.2.sites = f.sitesAt x.1 := fun hx =>
    (sitesAt_eq (mem_sortedBlocks.1 hx)).symm
  rw [allSites, List.pairwise_flatMap]
  constructor
  · intro x hx
    rw [hat hx, List.pairwise_iff_getElem]
    intro i j hi hj hij
    have hs := List.getElem?_eq_getElem hi
    have ht := List.getElem?_eq_getElem hj
    refine .inr ⟨?_, ?_⟩
    · rw [wf.block (List.getElem_mem hi), wf.block (List.getElem_mem hj)]
    · rw [wf.index hs, wf.index ht]
      exact Int.ofNat_lt.2 hij
  · refine pairwise_sortedBlocks.imp_of_mem fun hx hy hlt s hs t ht => .inl ?_
    rw [hat hx] at hs
    rw [hat hy] at ht
    rwa [wf.block hs, wf.block ht]

def DeclaredAt (f : Function) (n : String) (s : Site) : Prop := s ∈ f.allSites ∧ declares n s = true

theorem DeclaredAt.eq (hone : f.DeclaredOnce) (hs : f.DeclaredAt n s) (ht : f.DeclaredAt n t) : s = t := by
  obtain ⟨hs, hdecl⟩ := hs
  obtain ⟨ht, hdecl'⟩ := ht
  rw [declares_iff] at hdecl hdecl'
  exact hone.decl_unique hs ht hdecl.1 hdecl.2 hdecl'.1 hdecl'.2

theorem DeclaredAt.notMem_params (wf : f.WellFormed) (hone : f.DeclaredOnce) (h : f.DeclaredAt n s) :
    n ∉ f.params := by
  obtain ⟨hs, hdecl⟩ := h
  rw [declares_iff] at hdecl
  exact notMem_params_of_decl wf hone hs hdecl.1 hdecl.2

/-- Where two lifetimes end together, that of `n'` ends first. -/
inductive Outlives (f : Function) : String → String → Prop
  | param {n n' : String} {t : Site} (hn : n ∈ f.params) (ht : f.DeclaredAt n' t) : Outlives f n n'
  | params {n n' : String} {i j : ℕ} (hi : f.params[i]? = some n) (hj : f.params[j]? = some n')
      (h : i < j) : Outlives f n n'
  | decls {n n' : String} {s t : Site} (hs : f.DeclaredAt n s) (ht : f.DeclaredAt n' t)
      (h : s.StandsBefore t) : Outlives f n n'

theorem Outlives.asymm (wf : f.WellFormed) (hone : f.DeclaredOnce) (h : f.Outlives n n') :
    ¬ f.Outlives n' n := by
  have hparam : ∀ {n : String} {i : ℕ} {s : Site}, f.params[i]? = some n → ¬ f.DeclaredAt n s :=
    fun hi hs => hs.notMem_params wf hone (List.mem_of_getElem? hi)
  have hat : ∀ {n : String} {i j : ℕ}, f.params[i]? = some n → f.params[j]? = some n → i = j :=
    fun hi hj => (List.getElem?_inj (List.getElem?_eq_some_iff.1 hi).1 hone.params_nodup).1 (hi.trans hj.symm)
  intro h'
  cases h with
  | param hn ht =>
    cases h' with
    | param hn' _ => exact ht.notMem_params wf hone hn'
    | params hi _ _ => exact hparam hi ht
    | decls _ hs _ => exact hs.notMem_params wf hone hn
  | params hi hj hij =>
    cases h' with
    | param _ hs => exact hparam hi hs
    | params hj' hi' hji =>
      rw [hat hi hi', hat hj hj'] at hij
      exact Nat.lt_asymm hij hji
    | decls ht _ _ => exact hparam hj ht
  | decls hs ht hst =>
    cases h' with
    | param hn' _ => exact ht.notMem_params wf hone hn'
    | params hj _ _ => exact hparam hj ht
    | decls ht' hs' hts =>
      rw [ht'.eq hone ht, hs'.eq hone hs] at hts
      exact hst.asymm hts

/-- The order of the bindings is that in which their lifetimes would end, from the last to the first. -/
theorem pairwise_lifetimeOrder (wf : f.WellFormed) : f.lifetimeOrder.Pairwise f.Outlives := by
  have hdecl : ∀ {s : Site} {n : String}, s ∈ f.allSites.filter (·.kind = .decl) → s.binding = some n →
      f.DeclaredAt n s := fun hs hn => by
    rw [List.mem_filter, decide_eq_true_eq] at hs
    exact ⟨hs.1, declares_iff.2 ⟨hn, hs.2⟩⟩
  rw [lifetimeOrder, List.pairwise_append]
  refine ⟨?_, ?_, fun n hn n' hn' => ?_⟩
  · rw [List.pairwise_iff_getElem]
    exact fun i j hi hj => .params (List.getElem?_eq_getElem hi) (List.getElem?_eq_getElem hj)
  · rw [List.pairwise_filterMap]
    exact ((pairwise_allSites wf).filter _).imp_of_mem fun hs ht hst n hn n' hn' =>
      .decls (hdecl hs hn) (hdecl ht hn') hst
  · obtain ⟨t, ht, hn'⟩ := List.mem_filterMap.1 hn'
    exact .param hn (hdecl ht hn')

theorem outlives_iff (wf : f.WellFormed) (hone : f.DeclaredOnce) (hs : f.DeclaredAt n s)
    (ht : f.DeclaredAt n' t) : f.Outlives n n' ↔ s.StandsBefore t := by
  constructor
  · intro h
    cases h with
    | param hn _ => exact absurd hn (hs.notMem_params wf hone)
    | params hi _ _ => exact absurd (List.mem_of_getElem? hi) (hs.notMem_params wf hone)
    | decls hs' ht' h => rwa [hs'.eq hone hs, ht'.eq hone ht] at h
  · exact .decls hs ht

end Function

/-- The last declaration of `n` is followed by one of `n'`. -/
def DeclaredLater (events : List TraceEvent) (n n' : String) : Prop :=
  ∃ before s after, events = before ++ .pass s :: after ∧ Function.declares n s = true ∧
    (∀ t, .pass t ∈ after → Function.declares n t = false) ∧
      ∃ t, .pass t ∈ after ∧ Function.declares n' t = true

theorem DeclaredLater.exists_decls {f : Function} {a : BlockId} {es : List Edge} {n n' : String}
    (h : DeclaredLater (f.trace a es) n n') :
    n ≠ n' ∧ ∃ s t, f.DeclaredAt n s ∧ f.DeclaredAt n' t := by
  obtain ⟨before, s, after, htrace, hs, hlast, t, ht, ht'⟩ := h
  have hpass : .pass s ∈ f.trace a es := htrace ▸ List.mem_append_right _ List.mem_cons_self
  have hpass' : .pass t ∈ f.trace a es :=
    htrace ▸ List.mem_append_right _ (List.mem_cons_of_mem _ ht)
  refine ⟨?_, s, t, ⟨Function.mem_allSites_of_pass hpass, hs⟩, Function.mem_allSites_of_pass hpass', ht'⟩
  rintro rfl
  rw [hlast t ht] at ht'
  cases ht'

namespace FunctionPlan
variable {f : Function} {p : FunctionPlan} {names : List String} {n n' : String}

def EndsBefore (p : FunctionPlan) (names : List String) (n n' : String) : Prop :=
  ∀ x ∈ p.ended names, ∀ y ∈ p.ended names, x.1.binding = n → y.1.binding = n' →
    [x, y].Sublist (p.ended names)

theorem pairwise_ended (h : names.Pairwise f.Outlives) : (p.ended names).Pairwise fun x y =>
    x.1.binding = y.1.binding ∨ f.Outlives y.1.binding x.1.binding := by
  rw [ended, List.pairwise_flatMap, List.pairwise_reverse]
  constructor
  · intro n _
    refine List.pairwise_of_forall_mem_list fun x hx y hy => .inl ?_
    rw [(mem_plansOf.1 hx).2, (mem_plansOf.1 hy).2]
  · refine h.imp fun hout x hx y hy => .inr ?_
    rwa [(mem_plansOf.1 hx).2, (mem_plansOf.1 hy).2]

theorem endsBefore_iff (wf : f.WellFormed) (hone : f.DeclaredOnce) (h : names.Pairwise f.Outlives)
    (hplan : ∀ n ∈ names, ∃ d, p.destruction.get? { binding := n } = some d) (hn : n ∈ names)
    (hn' : n' ∈ names) (hne : n ≠ n') : p.EndsBefore names n' n ↔ f.Outlives n n' := by
  have hpairs : ∀ {x y : Place × DestructionPlan}, [x, y].Sublist (p.ended names) →
      x.1.binding = y.1.binding ∨ f.Outlives y.1.binding x.1.binding :=
    List.pairwise_iff_forall_sublist.1 (pairwise_ended h)
  constructor
  · intro hbefore
    -- the bindings as a whole have plans, so the order shows on them
    obtain ⟨d, hd⟩ := hplan n hn
    obtain ⟨d', hd'⟩ := hplan n' hn'
    have hsub := hbefore ({ binding := n' }, d') (mem_ended.2 ⟨hn', hd'⟩) ({ binding := n }, d)
      (mem_ended.2 ⟨hn, hd⟩) rfl rfl
    exact (hpairs hsub).resolve_left hne.symm
  · rintro hout x hx y hy rfl rfl
    rcases pair_sublist_of_ne hx hy fun heq => hne (by rw [heq]) with hsub | hsub
    · exact hsub
    · exact absurd ((hpairs hsub).resolve_left hne) (hout.asymm wf hone)

/-- What a run does where the lifetimes of the bindings end, after the events. -/
structure EndsInOrder (f : Function) (p : FunctionPlan) (events : List TraceEvent) (r : Run)
    (names : List String) : Prop where
  destroyed : (r.endScope p names).destroyed.toList =
    r.destroyed.toList ++ ((p.ended names).filter fun x => r.owes x.2).map Prod.fst
  elided : (r.endScope p names).elided.toList =
    r.elided.toList ++ ((p.ended names).filter fun x => !r.owes x.2).map Prod.fst
  planned : ∀ n ∈ names, ∃ d, ({ binding := n }, d) ∈ p.ended names
  order : ∀ n ∈ names, ∀ n' ∈ names, n ≠ n' → (p.EndsBefore names n' n ↔ f.Outlives n n')
  /-- The local that was declared last ends first exactly where the declarations stand in the order in
  which the run has passed them. -/
  latestFirst : (∀ n ∈ names, ∀ n' ∈ names, DeclaredLater events n n' → p.EndsBefore names n' n) ↔
    ∀ n ∈ names, ∀ n' ∈ names, DeclaredLater events n n' →
      ∀ s t, f.DeclaredAt n s → f.DeclaredAt n' t → s.StandsBefore t

theorem endsInOrder (wf : f.WellFormed) (hone : f.DeclaredOnce)
    (hplan : ∀ n ∈ f.lifetimeOrder, ∃ d, p.destruction.get? { binding := n } = some d) (a : BlockId)
    (es : List Edge) (r : Run) (test : Binding → Bool) :
    p.EndsInOrder f (f.trace a es) r (f.namesWhere test) := by
  have hpair : (f.namesWhere test).Pairwise f.Outlives := (Function.pairwise_lifetimeOrder wf).filter _
  have hplan' : ∀ n ∈ f.namesWhere test, ∃ d, p.destruction.get? { binding := n } = some d :=
    fun n hn => hplan n (List.mem_filter.1 hn).1
  have horder : ∀ n ∈ f.namesWhere test, ∀ n' ∈ f.namesWhere test, n ≠ n' →
      (p.EndsBefore (f.namesWhere test) n' n ↔ f.Outlives n n') :=
    fun _ hn _ hn' => endsBefore_iff wf hone hpair hplan' hn hn'
  refine ⟨r.destroyed_endScope _, r.elided_endScope _, fun n hn => ?_, horder, ?_⟩
  · obtain ⟨d, hd⟩ := hplan' n hn
    exact ⟨d, mem_ended.2 ⟨hn, hd⟩⟩
  · refine forall₂_congr fun n hn => forall₂_congr fun n' hn' => forall_congr' fun hlater => ?_
    obtain ⟨hne, s, t, hdecl, hdecl'⟩ := hlater.exists_decls
    rw [horder n hn n' hn' hne, Function.outlives_iff wf hone hdecl hdecl']
    refine ⟨fun h s' t' hs' ht' => ?_, fun h => h s t hdecl hdecl'⟩
    rwa [hs'.eq hone hdecl, ht'.eq hone hdecl']

end FunctionPlan

namespace Function
variable {f : Function} {t : TypeTable} {settings : Settings} {plan : FunctionPlan}

theorem exists_plan_of_planFunction {m : TypeModel} (hv : f.validate (some m) = .ok [])
    (h : planFunction m settings f = .ok plan) {name : String} {b : Binding} (hb : f.binding? name = some b) :
    ∃ d, plan.destruction.get? { binding := name } = some d := by
  cases hx : plan.excluded with
  | false => exact (planned_of_planFunction h hx).exists_plan hb
  | true =>
    obtain ⟨d, hd, _⟩ := exists_fallbackDestruction? (fallbackDestruction_of_planFunction h hx) hb
      ((typed_of_validate hv rfl).binding hb)
    exact ⟨d, hd⟩

/-- At every end of lifetimes that a run comes to, locals end before parameters, and the code that is lowered
destroys in the same order as the run. Locals end by the places of their declarations, so the one that was
declared last ends first exactly where these agree with the run. -/
theorem ends_inOrder (hf : Produced f ∨ Construction.Makes f) (ht : t.Built)
    (hv : f.validate (some (TypeModel.build t)) = .ok [])
    (hplan : planFunction (TypeModel.build t) settings f = .ok plan) {es : List Edge} {c : BlockId}
    (hw : f.Walk f.entry es c) :
    ∃ r sk, f.runAlong plan f.lifetimeOrder f.entry es { flags := plan.initialFlags } = .ok r ∧
      f.skeleton (TypeModel.build t) plan = .ok sk ∧
      (f.edgesAt c = [] → ∃ names, f.endingAtReturn f.lifetimeOrder c = .ok names ∧
        plan.EndsInOrder f (f.trace f.entry es) r names ∧
          ∃ x ∈ sk.blocks, x.id = c ∧ ∃ ds, x.ending = .ret ds ∧
            plan.DropsFollow (TypeModel.build t) names ds) ∧
      ∀ (i : ℕ) (e : Edge), (f.edgesAt c)[i]? = some e →
        ∃ names, f.endingOnEdge f.lifetimeOrder c e.dst = .ok names ∧
          plan.EndsInOrder f (f.trace f.entry es) r names ∧
            ∃ x ∈ sk.blocks, x.id = c ∧ ∃ succs, x.ending = .go succs ∧
              ∃ y : Successor, succs[i]? = some y ∧ y.dst = e.dst ∧
                plan.DropsFollow (TypeModel.build t) names y.drops := by
  have wf := wellFormed_of_validate hv rfl
  have hone : f.DeclaredOnce := hf.elim Produced.declaredOnce Construction.Makes.declaredOnce
  have hplanned : ∀ n ∈ f.lifetimeOrder, ∃ d, plan.destruction.get? { binding := n } = some d := fun n hn => by
    obtain ⟨b, hb⟩ := exists_binding wf hn
    exact exists_plan_of_planFunction hv hplan hb
  obtain ⟨r, hr⟩ := exists_runAlong (p := plan) wf f.entry es { flags := plan.initialFlags }
  obtain ⟨sk, hsk, hsketch⟩ := FunctionPlan.exists_sketch wf hone (fun he => src_of_validate hv rfl he)
    (named_of_planFunction ht.fieldsRegistered hplan)
  have hc : c ∈ sk.ids := by
    rw [hsketch.ids, mem_orderedBlocks]
    exact wf.leads_hasBlock wf.entry ⟨es, hw⟩
  obtain ⟨x, hx, rfl⟩ := List.mem_map.1 hc
  have hdescribes := hsketch.blocks x hx
  refine ⟨r, sk, hr, hsk, fun hexit => ?_, fun i e he => ?_⟩
  · obtain ⟨names, hnames⟩ := exists_bindingsWhere wf (·.inRegion x.id)
    refine ⟨names, hnames, ?_, x, hx, rfl, ?_⟩
    · rw [eq_namesWhere hnames]
      exact FunctionPlan.endsInOrder wf hone hplanned f.entry es r _
    · cases hending : x.ending with
      | ret ds =>
        refine ⟨ds, rfl, ?_⟩
        rw [eq_namesWhere hnames]
        exact (hdescribes.ret hending).2.follow
      | go succs => exact absurd hexit (hdescribes.go hending).1
  · obtain ⟨names, hnames⟩ := exists_bindingsWhere wf fun b => b.inRegion x.id && !b.inRegion e.dst
    refine ⟨names, hnames, ?_, x, hx, rfl, ?_⟩
    · rw [eq_namesWhere hnames]
      exact FunctionPlan.endsInOrder wf hone hplanned f.entry es r _
    · cases hending : x.ending with
      | ret ds =>
        rw [(hdescribes.ret hending).1] at he
        cases he
      | go succs =>
        obtain ⟨y, hy, hdst, hpays⟩ := exists_getElem?_of_forall₂ (hdescribes.go hending).2 he
        refine ⟨succs, rfl, y, hy, hdst, ?_⟩
        rw [eq_namesWhere hnames]
        exact hpays.follow

def operandLocal : Function :=
  (Script.run .standard "f" .empty [
    .operand "&&" [.branchThen [], .declare "x" (.named "Str")],
    .declare "y" (.named "Str"),
    .ret .value []]).function

def operandLocalPlan : FunctionPlan :=
  (planFunction (TypeModel.build .standard) {} operandLocal).toOption.getD default

theorem planFunction_operandLocal :
    planFunction (TypeModel.build .standard) {} operandLocal = .ok operandLocalPlan :=
  eq_ok_of_isOk (by decide +kernel)

def throughOperand : List Edge := [
  { src := 0, dst := 1, kind := .onTrue },
  { src := 1, dst := 3, kind := .onTrue },
  { src := 3, dst := 5 },
  { src := 5, dst := 2 }]

theorem ends_throughOperand : ∃ r names,
    operandLocal.runAlong operandLocalPlan operandLocal.lifetimeOrder operandLocal.entry throughOperand
      { flags := operandLocalPlan.initialFlags } = .ok r ∧
    operandLocal.endingAtReturn operandLocal.lifetimeOrder 2 = .ok names ∧
    operandLocalPlan.EndsInOrder operandLocal (operandLocal.trace operandLocal.entry throughOperand) r names := by
  have hw : operandLocal.Walk operandLocal.entry throughOperand 2 := by decide +kernel
  have hexit : operandLocal.edgesAt 2 = [] := by decide +kernel
  obtain ⟨r, _, hr, _, hreturn, _⟩ := ends_inOrder (f := operandLocal) (.inl (.script ..)) TypeTable.standard_built
    (by decide +kernel) planFunction_operandLocal hw
  obtain ⟨names, hnames, hends, _⟩ := hreturn hexit
  exact ⟨r, names, hr, hnames, hends⟩

/-- A run that takes the right operand declares `x` and then `y`, and it destroys `x` and then `y`. -/
theorem ends_latestLast :
    Produced operandLocal ∧ operandLocal.validate (some (TypeModel.build .standard)) = .ok [] ∧
      planFunction (TypeModel.build .standard) {} operandLocal = .ok operandLocalPlan ∧
      operandLocalPlan.excluded = false ∧ operandLocal.Walk operandLocal.entry throughOperand 2 ∧
      DeclaredLater (operandLocal.trace operandLocal.entry throughOperand) "x" "y" ∧
      operandLocal.endingAtReturn operandLocal.lifetimeOrder 2 = .ok ["y", "x"] ∧
      (operandLocal.run operandLocalPlan .empty 200).toOption.map (fun r => (r.blocks, r.destroyed)) =
        some (#[0, 1, 3, 5, 2], #[{ binding := "x" }, { binding := "y" }]) := by
  have hlater : DeclaredLater (operandLocal.trace operandLocal.entry throughOperand) "x" "y" := by
    refine ⟨[.enter 0, .enter 1, .enter 3, .enter 5],
      { id := 0, block := 5, index := 0, kind := .decl, binding := some "x" },
      [.enter 2, .pass { id := 1, block := 2, index := 0, kind := .decl, binding := some "y" }],
      by decide +kernel, by decide, fun t ht => ?_, _, List.mem_cons_of_mem _ List.mem_cons_self, by decide⟩
    simp only [List.mem_cons, reduceCtorEq, TraceEvent.pass.injEq, List.not_mem_nil, or_false, false_or] at ht
    rw [ht]
    decide
  refine ⟨.script .., ?_, planFunction_operandLocal, ?_, ?_, hlater, ?_, ?_⟩
  all_goals decide +kernel

end Function
end MovePlan
