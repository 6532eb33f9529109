import MovePlan.Proofs.Analysis.LastUse
import MovePlan.Proofs.Flow.Tidy
import MovePlan.Proofs.Plan.Checked
import MovePlan.Proofs.Plan.Fallback

set_option autoImplicit false

/-!
# When a function has a plan

On a well-formed function every pass answers, if it can follow the paths of the accesses and put its reports
into words. On any other the fallback is asked, which needs the sites that writes claim to stand behind.
-/
namespace MovePlan

namespace Function
variable {f : Function} {t : TypeTable} {settings : Settings} {plan : FunctionPlan} {s : Site}
  {moves : List SiteId} {place : Place}

theorem WellFormed.sourceFound (wf : f.WellFormed) (hs : s ∈ f.allSites) : f.SourceFound s := by
  have hmem := wf.mem_sitesAt hs
  obtain ⟨i, hi⟩ := List.mem_iff_getElem?.1 hmem
  have hindex : s.index = (i : ℤ) := wf.index hi
  obtain ⟨blk, hb⟩ := hasBlock_iff.1 (hasBlock_of_mem_sitesAt hmem)
  rw [sitesAt_eq hb] at hi
  have hlength : i < blk.sites.length := (List.getElem?_eq_some_iff.1 hi).1
  cases i with
  | zero => exact .inl (by simpa using hindex)
  | succ i =>
    refine .inr ⟨blk, hb, ?_⟩
    have hbefore : s.index - 1 = (i : ℤ) := by omega
    rw [hbefore, entryAt?, if_pos (by omega), Int.toNat_natCast, List.getElem?_eq_getElem (by omega)]
    rfl

theorem Typed.leafType? (typed : f.Typed (TypeModel.build t)) (paths : f.Resolves (TypeModel.build t))
    (hs : s ∈ f.allSites) (ha : s.isAccess = true) {name : String} {b : Binding}
    (hn : s.binding = some name) (hb : f.binding? name = some b) :
    ∃ leaf, (TypeModel.build t).leafType? b s.path = some leaf := by
  obtain ⟨p, hp⟩ := paths hs ha hn hb
  have hroot := typed.binding hb
  exact ⟨p.leaf, by simp only [TypeModel.leafType?, hroot, Bool.not_true, Bool.false_eq_true, ↓reduceIte, hp]⟩

theorem exists_siteType (wf : f.WellFormed) (typed : f.Typed (TypeModel.build t))
    (paths : f.Resolves (TypeModel.build t)) (ht : t.FieldsRegistered) (hs : s ∈ f.allSites)
    (ha : s.isAccess = true) :
    ∃ type, f.siteType (TypeModel.build t) s = .ok type ∧ t.contains type = true := by
  rw [siteType]
  cases hn : s.binding with
  | none =>
    obtain ⟨type, htype, hc⟩ := typed.temporary hs hn
    exact ⟨type, optionOr_eq_ok.2 htype, hc⟩
  | some name =>
    obtain ⟨b, hb⟩ := wf.binding hs hn
    obtain ⟨leaf, hleaf⟩ := typed.leafType? paths hs ha hn hb
    exact ⟨leaf, optionOr_eq_ok.2 (by rw [hb]; exact hleaf), TypeModel.contains_of_leafType? ht hleaf⟩

theorem exists_decisions (wf : f.WellFormed) (typed : f.Typed (TypeModel.build t))
    (paths : f.Resolves (TypeModel.build t)) (ht : t.FieldsRegistered) (facts : LastUseFacts) :
    ∃ ds, f.decisions (TypeModel.build t) settings facts = .ok ds := by
  refine exists_bind (exists_mapM fun s hs => ?_) fun _ _ => exists_pure
  have hall : s ∈ f.allSites := (List.mem_filter.1 hs).1
  refine exists_bind ?_ fun _ _ => exists_pure
  rw [decideSite]
  split
  · exact ⟨_, rfl⟩
  next hk =>
  obtain ⟨target, htarget⟩ := Option.isSome_iff_exists.1 (wf.moveTarget hall (by simpa using hk))
  refine exists_bind ⟨target, optionOr_eq_ok.2 htarget⟩ fun target _ => ?_
  split
  · exact exists_pure
  split
  · exact exists_pure
  split
  · exact exists_pure
  have ha : s.isAccess = true := by
    rw [Site.isAccess, not_not.1 hk]
    rfl
  obtain ⟨type, htype, hc⟩ := exists_siteType wf typed paths ht hall ha
  refine exists_bind ⟨type, htype⟩ fun type' htype' => ?_
  rw [htype, Except.ok.injEq] at htype'
  subst htype'
  refine exists_bind (exists_liftType (TypeModel.exists_isMoveCapable hc)) fun capable _ => ?_
  cases capable <;> exact exists_pure

theorem exists_anyDominates (wf : f.WellFormed) (d : Dominators) (b : Binding) (exits : List ScopeExit)
    {sites : List Site} (hsites : ∀ s ∈ sites, s ∈ f.allSites) :
    ∃ x, f.anyDominates d b exits sites = .ok x := by
  induction sites with
  | nil => exact ⟨false, rfl⟩
  | cons s sites ih =>
    refine exists_bind ?_ fun first _ => ?_
    · rw [dominatesExits]
      split
      · exact exists_pure
      obtain ⟨blk, hb⟩ := hasBlock_iff.1
        (hasBlock_of_mem_sitesAt (wf.mem_sitesAt (hsites s List.mem_cons_self)))
      refine exists_bind ⟨blk, optionOr_eq_ok.2 hb⟩ fun blk _ => ?_
      split <;> exact exists_pure
    · cases first with
      | true => exact exists_pure
      | false => exact ih fun t ht => hsites t (List.mem_cons_of_mem _ ht)

theorem exists_placePlan (wf : f.WellFormed) (d : Dominators) {b : Binding}
    (hb : f.binding? place.binding = some b) (type : TypeId) {movedSites : List Site}
    (hmoved : ∀ s ∈ movedSites, s ∈ f.allSites) :
    ∃ x, f.placePlan (f.placeStatesIn f.graph moves) d b place type movedSites = .ok x := by
  refine exists_bind (exists_placeStatesIn hb) fun r _ => ?_
  have hsites : ∀ s ∈ movedSites.filter (·.reaches place), s ∈ f.allSites :=
    fun s hs => hmoved s (List.mem_filter.1 hs).1
  dsimp only
  split
  · refine exists_bind ⟨false, rfl⟩ fun dominated _ => ?_
    split <;> exact exists_pure
  · refine exists_bind (exists_anyDominates wf d b _ hsites) fun dominated _ => ?_
    split <;> exact exists_pure

theorem exists_bindingPlans (wf : f.WellFormed) (typed : f.Typed (TypeModel.build t))
    (paths : f.Resolves (TypeModel.build t)) (ht : t.FieldsRegistered) (d : Dominators) {name : String}
    {b : Binding} (hb : f.binding? name = some b) {moved : List Site}
    (hmoved : ∀ s ∈ moved, s ∈ f.allSites ∧ s.isAccess = true) :
    ∃ plans, f.bindingPlans (TypeModel.build t) (f.placeStatesIn f.graph moves) moved d name b =
      .ok plans := by
  rw [bindingPlans]
  cases f.ownership b with
  | borrowed => exact exists_pure
  | captured => exact exists_pure
  | owned =>
    have hown : ∀ s ∈ moved.filter (·.binding = some name), s ∈ f.allSites :=
      fun s hs => (hmoved s (List.mem_filter.1 hs).1).1
    refine exists_bind (exists_liftType (TypeModel.exists_needsDestroy (typed.binding hb)))
      fun needs _ => ?_
    split
    · exact exists_pure
    refine exists_bind (exists_placePlan wf d hb b.type hown) fun root _ => ?_
    refine exists_bind (exists_mapM fun path hpath => ?_) fun _ _ => exists_pure
    -- the path is that of a site which is moved
    rw [mem_sortBy, mem_distinct, List.mem_filter, List.mem_map] at hpath
    obtain ⟨⟨s, hs, rfl⟩, _⟩ := hpath
    have hn : s.binding = some name := by simpa using (List.mem_filter.1 hs).2
    obtain ⟨hall, ha⟩ := hmoved s (List.mem_filter.1 hs).1
    obtain ⟨p, hp⟩ := paths hall ha hn hb
    have hc : t.contains p.leaf = true :=
      TypeModel.contains_of_resolvePath ht (typed.binding hb) hp p.leaf p.leaf_mem_chain
    refine exists_bind (exists_liftType ⟨p, hp⟩) fun p' hp' => ?_
    rw [liftType_eq_ok, hp, Except.ok.injEq] at hp'
    subst hp'
    refine exists_bind (exists_liftType (TypeModel.exists_needsDestroy hc)) fun needs _ => ?_
    cases needs with
    | false => exact exists_pure
    | true =>
      have hplace : f.binding? ({ binding := name, path := s.path } : Place).binding = some b := hb
      exact exists_bind (exists_placePlan wf d hplace p.leaf hown) fun _ _ => exists_pure

theorem exists_destructionPlans (wf : f.WellFormed) (typed : f.Typed (TypeModel.build t))
    (paths : f.Resolves (TypeModel.build t)) (ht : t.FieldsRegistered)
    (hmoves : ∀ id ∈ moves, ∃ s ∈ f.allSites, s.isAccess = true ∧ s.id = id) :
    ∃ plans, f.destructionPlans (TypeModel.build t) moves = .ok plans := by
  obtain ⟨moved, hmoved, hall⟩ := exists_moved wf hmoves
  refine exists_bind ⟨moved, hmoved⟩ fun moved' hmoved' => ?_
  rw [hmoved, Except.ok.injEq] at hmoved'
  subst hmoved'
  refine exists_bind (exists_mapM fun name hname => ?_) fun _ _ => exists_pure
  rw [sortNames, mem_sortBy, ← OrderedMap.contains_iff, OrderedMap.contains, ← binding?,
    Option.isSome_iff_exists] at hname
  obtain ⟨b, hb⟩ := hname
  refine exists_bind ⟨b, optionOr_eq_ok.2 hb⟩ fun b' hb' => ?_
  rw [getBinding, optionOr_eq_ok, hb, Option.some.injEq] at hb'
  subst hb'
  exact exists_bindingPlans wf typed paths ht _ hb hall

theorem exists_assignPlans (wf : f.WellFormed) (ht : t.FieldsRegistered)
    (destruction : OrderedMap Place DestructionPlan) :
    ∃ plans, f.assignPlans (TypeModel.build t) settings moves destruction = .ok plans := by
  refine exists_bind (exists_mapM fun s hs => ?_) fun _ _ => exists_pure
  have hall : s ∈ f.allSites := (List.mem_filter.1 hs).1
  cases hn : s.binding with
  | none => exact ⟨none, rfl⟩
  | some name =>
    obtain ⟨b, hb⟩ := wf.binding hall hn
    refine exists_bind ⟨b, optionOr_eq_ok.2 hb⟩ fun b' hb' => ?_
    rw [getBinding, optionOr_eq_ok, hb, Option.some.injEq] at hb'
    subst hb'
    cases hleaf : (TypeModel.build t).leafType? b s.path with
    | none => exact exists_pure
    | some leaf =>
      have hc := TypeModel.contains_of_leafType? ht hleaf
      refine exists_bind (TypeModel.exists_assignRelevant hc) fun relevant _ => ?_
      cases relevant with
      | false => exact exists_pure
      | true =>
        have hplace : f.binding? ({ binding := name, path := s.path } : Place).binding = some b := hb
        refine exists_bind (exists_placeStatesIn hplace) fun _ _ => ?_
        refine exists_bind (exists_liftType (TypeModel.exists_needsDestroy hc)) fun _ _ => ?_
        exact exists_bind (exists_assignSource_iff.2 (wf.sourceFound hall)) fun _ _ => exists_pure

theorem exists_site_of_moves {m : TypeModel} {facts : LastUseFacts} {ds : OrderedMap SiteId UseDecision}
    (h : f.decisions m settings facts = .ok ds) :
    ∀ id ∈ transferring ds, ∃ s ∈ f.allSites, s.isAccess = true ∧ s.id = id := by
  intro id hid
  obtain ⟨⟨id, d⟩, hmem, rfl⟩ := List.mem_map.1 hid
  obtain ⟨entries, hentries, heq⟩ := bind_eq_ok.1 h
  rw [pure_eq_ok] at heq
  rw [← heq, List.mem_filter, OrderedMap.mem_entries_ofList] at hmem
  obtain ⟨s, hs, hpair⟩ := mem_of_mapM hentries (mem_of_lastWrite hmem.1)
  obtain ⟨_, _, hpair⟩ := bind_eq_ok.1 hpair
  rw [pure_eq_ok, Prod.mk.injEq] at hpair
  obtain ⟨hall, hk⟩ := List.mem_filter.1 hs
  refine ⟨s, hall, ?_, hpair.1⟩
  cases hkind : s.kind with
  | decl => simp [hkind] at hk
  | _ => rw [Site.isAccess, hkind]; rfl

/-- On a well-formed function whose paths can be followed, the plan fails only in what it reports. -/
theorem exists_ownPlan_iff (wf : f.WellFormed) (typed : f.Typed (TypeModel.build t))
    (paths : f.Resolves (TypeModel.build t)) (ht : t.FieldsRegistered) (facts : LastUseFacts) :
    (∃ plan, f.ownPlan (TypeModel.build t) settings facts = .ok plan) ↔
      ∀ ds, f.decisions (TypeModel.build t) settings facts = .ok ds → f.ReportsLegible (transferring ds) := by
  obtain ⟨decisions, hdecisions⟩ : ∃ ds, f.decisions (TypeModel.build t) settings facts = .ok ds :=
    exists_decisions wf typed paths ht facts
  have hmoves := exists_site_of_moves hdecisions
  have honly : ∀ {ds}, f.decisions (TypeModel.build t) settings facts = .ok ds → decisions = ds :=
    fun h => Except.ok.inj (hdecisions.symm.trans h)
  constructor
  · rintro ⟨plan, h⟩ ds hds
    obtain ⟨ds', hds', h⟩ := bind_eq_ok.1 h
    obtain ⟨uses, huses, -⟩ := bind_eq_ok.1 h
    obtain rfl := honly hds
    obtain rfl := honly hds'
    exact (exists_checkUseAfterMove_iff wf hmoves).1 ⟨uses, huses⟩
  · intro h
    refine exists_bind ⟨decisions, hdecisions⟩ fun ds hds => ?_
    obtain rfl := honly hds
    refine exists_bind ((exists_checkUseAfterMove_iff wf hmoves).2 (h _ hds)) fun uses _ => ?_
    split
    · exact (exists_fallbackPlan_iff ht uses).2 fun s hs _ => wf.sourceFound hs
    · refine exists_bind (exists_destructionPlans wf typed paths ht hmoves) fun destruction _ => ?_
      exact exists_bind (exists_assignPlans wf ht destruction) fun _ _ => exists_pure

theorem exists_violatingName (t : TypeTable) (type : TypeId) :
    ∃ x, violatingName? (TypeModel.build t) type = .ok x := by
  rw [violatingName?]
  split
  · exact exists_pure
  next hc =>
  have hc : t.contains type = true := by simpa [TypeModel.build] using hc
  refine exists_bind (exists_liftType (TypeModel.exists_isViolating hc)) fun violating _ => ?_
  split
  · exact exists_bind (exists_liftType (TypeModel.exists_typeName hc)) fun _ _ => exists_pure
  · exact exists_pure

theorem exists_violations (f : Function) (t : TypeTable) :
    ∃ ds, f.violations (TypeModel.build t) = .ok ds := by
  refine exists_bind (exists_mapM fun e _ =>
    exists_bind (exists_violatingName t _) fun _ _ => exists_pure) fun _ _ => ?_
  refine exists_bind (exists_mapM fun s _ => ?_) fun _ _ => exists_pure
  cases s.tempType with
  | none => exact exists_pure
  | some type => exact exists_bind (exists_violatingName t type) fun _ _ => exists_pure

/-- The paths of the accesses can be followed, and what the check of moved values finds can be put into
words. -/
structure Analyzable (f : Function) (m : TypeModel) (settings : Settings) : Prop where
  paths : f.Resolves m
  reports : ∀ facts ds, f.lastUseFacts m settings.lastUseMode = .ok facts →
    f.decisions m settings facts = .ok ds → f.ReportsLegible (transferring ds)

/-- No forwarding index is below the first parameter, all findings can be put into words, and every write that
needs a plan finds the site before it. A function without findings and without values of violating types is
analyzable. -/
structure Answerable (f : Function) (m : TypeModel) (settings : Settings) : Prop where
  forwards : f.hasBlock f.entry = true → f.forwardsInRange = true
  findings : Describable (f.findings (some m))
  writes : ∀ s ∈ f.allSites, f.PlansWrite m s → f.SourceFound s
  own : f.findings (some m) = [] → f.violations m = .ok [] → f.Analyzable m settings

theorem answerable_of_bodyPlan (ht : t.FieldsRegistered) {plan : FunctionPlan}
    (h : f.bodyPlan (TypeModel.build t) settings = .ok plan) :
    f.Answerable (TypeModel.build t) settings := by
  obtain ⟨defects, hvalid, h⟩ := bind_eq_ok.1 h
  obtain ⟨hforwards, hdescribable⟩ := exists_validate_iff.1 ⟨defects, hvalid⟩
  split at h
  next herrors =>
    refine ⟨hforwards, hdescribable, (exists_fallbackPlan_iff ht defects).1 ⟨plan, h⟩, fun hnone _ => ?_⟩
    obtain rfl := Except.ok.inj (hvalid.symm.trans (validate_of_findings hnone hforwards))
    cases herrors
  next herrors =>
    rw [Bool.not_eq_true] at herrors
    have wf := wellFormed_of_validate hvalid herrors
    have typed := typed_of_validate hvalid herrors
    refine ⟨hforwards, hdescribable, fun s hs _ => wf.sourceFound hs, fun _ hquiet => ?_⟩
    obtain ⟨warnings, hwarnings, h⟩ := bind_eq_ok.1 h
    obtain rfl : [] = warnings := Except.ok.inj (hquiet.symm.trans hwarnings)
    obtain ⟨facts, hfacts, h⟩ := bind_eq_ok.1 h
    obtain ⟨own, hown, -⟩ := bind_eq_ok.1 h
    rw [liftType_eq_ok] at hfacts
    have paths : f.Resolves (TypeModel.build t) :=
      (exists_lastUseFacts_iff ht wf typed settings.lastUseMode).1 ⟨facts, hfacts⟩
    refine ⟨paths, fun facts' ds hfacts' => ?_⟩
    obtain rfl : facts = facts' := Except.ok.inj (hfacts.symm.trans hfacts')
    exact (exists_ownPlan_iff wf typed paths ht facts).1 ⟨own, hown⟩ ds

theorem Answerable.exists_bodyPlan (ht : t.FieldsRegistered)
    (h : f.Answerable (TypeModel.build t) settings) :
    ∃ plan, f.bodyPlan (TypeModel.build t) settings = .ok plan := by
  refine exists_bind (exists_validate_iff.2 ⟨h.forwards, h.findings⟩) fun defects hvalid => ?_
  split
  · exact (exists_fallbackPlan_iff ht defects).2 h.writes
  next herrors =>
  rw [Bool.not_eq_true] at herrors
  have wf := wellFormed_of_validate hvalid herrors
  have typed := typed_of_validate hvalid herrors
  refine exists_bind (exists_violations f t) fun warnings hwarnings => ?_
  split
  · exact (exists_fallbackPlan_iff ht _).2 h.writes
  next hquiet =>
  obtain rfl : warnings = [] := by simpa using hquiet
  obtain ⟨paths, hreports⟩ := h.own (findings_of_validate hvalid herrors) hwarnings
  have hanalysis : ∃ facts, f.lastUseFacts (TypeModel.build t) settings.lastUseMode = .ok facts :=
    (exists_lastUseFacts_iff ht wf typed settings.lastUseMode).2 paths
  refine exists_bind (exists_liftType hanalysis) fun facts hfacts => ?_
  refine exists_bind ((exists_ownPlan_iff wf typed paths ht facts).2 fun ds => ?_) fun _ _ => exists_pure
  exact hreports facts ds (liftType_eq_ok.1 hfacts)

end Function

section Nested
variable {m : TypeModel} {settings : Settings} {f : Function} {plan : FunctionPlan}

theorem planFunctions_eq (fs : List Function) :
    planFunctions m settings fs = fs.mapM (planFunction m settings) := by
  induction fs with
  | nil => rw [planFunctions]; rfl
  | cons f fs ih => rw [planFunctions, List.mapM_cons, ih]

theorem planFunction_eq_ok : planFunction m settings f = .ok plan ↔
    ∃ body inner, f.bodyPlan m settings = .ok body ∧
      List.Forall₂ (fun g p => planFunction m settings g = .ok p) f.nested inner ∧
      plan = { body with nested := inner } := by
  rw [Function.planFunction_eq, planFunctions_eq]
  constructor
  · intro h
    obtain ⟨body, hbody, h⟩ := bind_eq_ok.1 h
    obtain ⟨inner, hinner, h⟩ := bind_eq_ok.1 h
    exact ⟨body, inner, hbody, mapM_eq_ok.1 hinner, (pure_eq_ok.1 h).symm⟩
  · rintro ⟨body, inner, hbody, hinner, rfl⟩
    exact bind_eq_ok.2 ⟨body, hbody, bind_eq_ok.2 ⟨inner, mapM_eq_ok.2 hinner, rfl⟩⟩

/-- The relation holds of a function and its plan, of the functions nested in it and theirs, and so
on. -/
inductive Throughout (R : Function → FunctionPlan → Prop) : Function → FunctionPlan → Prop
  | mk {f : Function} {plan : FunctionPlan} (here : R f plan)
      (inside : List.Forall₂ (Throughout R) f.nested plan.nested) : Throughout R f plan

theorem nested_induction {P : Function → Prop} (step : ∀ f, (∀ g ∈ f.nested, P g) → P f)
    (f : Function) : P f :=
  step f fun g _ => nested_induction step g
termination_by sizeOf f
decreasing_by
  cases f
  rename_i hg
  have hsize := List.sizeOf_lt_of_mem hg
  dsimp only at hsize
  simp only [Function.mk.sizeOf_spec]
  omega

theorem exists_planFunction_iff {t : TypeTable} (ht : t.FieldsRegistered) (f : Function) :
    (∃ plan, planFunction (TypeModel.build t) settings f = .ok plan) ↔
      Everywhere (Function.Answerable · (TypeModel.build t) settings) f := by
  induction f using nested_induction with
  | step f ih =>
  constructor
  · rintro ⟨plan, h⟩
    obtain ⟨body, inner, hbody, hinner, _⟩ := planFunction_eq_ok.1 h
    refine .mk (Function.answerable_of_bodyPlan ht hbody) fun g hg => (ih g hg).1 ?_
    obtain ⟨p, _, hp⟩ := exists_of_forall₂_left hinner hg
    exact ⟨p, hp⟩
  · intro h
    obtain ⟨body, hbody⟩ := h.here.exists_bodyPlan ht
    obtain ⟨inner, hinner⟩ := exists_mapM fun g hg => (ih g hg).2 (h.inside hg)
    exact ⟨_, planFunction_eq_ok.2 ⟨body, inner, hbody, mapM_eq_ok.1 hinner, rfl⟩⟩

/-- What holds of every function and its own plan holds throughout. -/
theorem throughout_of_planFunction {R : Function → FunctionPlan → Prop}
    (hR : ∀ f body inner, f.bodyPlan m settings = .ok body → R f { body with nested := inner })
    {f : Function} {plan : FunctionPlan} (h : planFunction m settings f = .ok plan) :
    Throughout R f plan := by
  induction f using nested_induction generalizing plan with
  | step f ih =>
  obtain ⟨body, inner, hbody, hinner, rfl⟩ := planFunction_eq_ok.1 h
  exact .mk (hR f body inner hbody) (forall₂_imp_of_mem hinner fun g hg p hp => ih g hg hp)

/-- A function has a plan just if every function in it is answerable: what the passes look up is there, and
what they report has no number that is too long. Whenever validation finds an error, at any depth, the plan
moves nothing and reports just the findings. -/
theorem planFunction_answers {t : TypeTable} (ht : t.Built) (settings : Settings) (f : Function) :
    ((∃ plan, planFunction (TypeModel.build t) settings f = .ok plan) ↔
      Everywhere (Function.Answerable · (TypeModel.build t) settings) f) ∧
    ∀ plan, planFunction (TypeModel.build t) settings f = .ok plan →
      Throughout (fun g p => ∀ ds, g.validate (some (TypeModel.build t)) = .ok ds →
        hasErrors ds = true → Function.Inert p ds) f plan := by
  refine ⟨exists_planFunction_iff ht.fieldsRegistered f, fun plan h => ?_⟩
  refine throughout_of_planFunction (fun g body inner hbody ds hv herrors => ?_) h
  obtain ⟨defects, hvalid, hbody⟩ := bind_eq_ok.1 hbody
  rw [hv, Except.ok.injEq] at hvalid
  subst hvalid
  rw [if_pos herrors] at hbody
  have hinert := Function.inert_fallbackPlan hbody
  exact ⟨hinert.excluded, hinert.diagnostics, hinert.facts, hinert.flags, hinert.transfers⟩

end Nested

def misplacedWrite : Function where
  name := "f"
  blocks := .ofList [
    (0, { sites := [{ id := 0, block := 0, index := 5, kind := .write, binding := some "t" }] })]
  bindings := .ofList [("t", { name := "t", type := 2 })]

def forwardsNothing : Function where
  name := "f"
  blocks := .ofList [(0, {})]
  forwards := [-1]

def misplacedNumber : Function where
  name := "f"
  blocks := .ofList [
    (0, { sites := [{ id := 0, block := 7, index := 5, kind := .write, binding := some "n" }] })]
  bindings := .ofList [("n", { name := "n", type := 1 })]

theorem planFunction_misplacedNumber :
    ((∃ plan, planFunction (TypeModel.build .standard) {} misplacedNumber = .ok plan) ↔
      Everywhere (Function.Answerable · (TypeModel.build .standard) {}) misplacedNumber) ∧
    ∀ plan, planFunction (TypeModel.build .standard) {} misplacedNumber = .ok plan →
      Throughout (fun g p => ∀ ds, g.validate (some (TypeModel.build .standard)) = .ok ds →
        hasErrors ds = true → Function.Inert p ds) misplacedNumber plan :=
  planFunction_answers TypeTable.standard_built {} misplacedNumber

/-- A binding that is kept under another name, so that the path of its access is not validated. -/
def keptElsewhere : Function where
  name := "f"
  blocks := .ofList [
    (0, { sites := [{ id := 0, block := 0, index := 0, kind := .read, binding := some "a", path := ["zzz"] }] })]
  bindings := .ofList [("a", { name := "b", type := 2 })]

def enteredFarAway : Function where
  name := "f"
  entry := 10 ^ Numeral.maxLength

/-- Validation finds the misplaced write and nothing about the misplaced binding, and it would refuse the
forwarding and the missing entry. None of the four functions gets a plan. -/
theorem planFunction_refuses :
    (∃ ds, misplacedWrite.validate (some (TypeModel.build .standard)) = .ok ds ∧ hasErrors ds = true) ∧
      ((planFunction (TypeModel.build .standard) {} misplacedWrite).map fun _ => ()) =
        .error .noPosition ∧
      ((planFunction (TypeModel.build .standard) {} forwardsNothing).map fun _ => ()) =
        .error .noParam ∧
      keptElsewhere.validate (some (TypeModel.build .standard)) = .ok [] ∧
      ((planFunction (TypeModel.build .standard) {} keptElsewhere).map fun _ => ()) =
        .error (.type (.noField "Str" "zzz")) ∧
      ((planFunction (TypeModel.build .standard) {} enteredFarAway).map fun _ => ()) =
        .error .longNumber := by
  have hfound : (misplacedWrite.validate (some (TypeModel.build .standard))).map hasErrors = .ok true := by
    decide +kernel
  refine ⟨map_eq_ok.1 hfound, ?_, ?_, ?_, ?_, ?_⟩
  all_goals decide +kernel

end MovePlan
