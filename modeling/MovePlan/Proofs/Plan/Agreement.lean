import MovePlan.Proofs.Plan.Settings
import MovePlan.Proofs.Plan.Storage

set_option autoImplicit false

namespace MovePlan

theorem mapM_map_of_ok {ε α β γ : Type} {g : α → Except ε β} {k : α → Except ε γ} {h : β → γ} {xs : List α}
    {ys : List β} (hg : xs.mapM g = .ok ys) (hk : ∀ x ∈ xs, ∀ y, g x = .ok y → k x = .ok (h y)) :
    xs.mapM k = .ok (ys.map h) := by
  rw [mapM_eq_ok, List.forall₂_map_right_iff]
  exact forall₂_imp_of_mem (mapM_eq_ok.1 hg) hk

namespace Function
variable {f : Function} {m : TypeModel} {t : TypeTable} {settings : Settings} {facts : LastUseFacts}
  {plan fallback : FunctionPlan} {s : Site} {name : String} {b : Binding}

theorem of_returnsForwarded {t : Target} (h : f.returnsForwarded s t = true) :
    t.mode = .moveRef ∧ t.isForwardingCall = false := by
  rw [returnsForwarded] at h
  cases hb : s.binding.bind f.binding? with
  | none => simp [hb] at h
  | some b =>
    simp only [hb, Bool.and_eq_true, decide_eq_true_eq] at h
    exact ⟨h.1.2, by simp [Target.isForwardingCall, h.1.1.2]⟩

theorem passing_of_open {t : Target} (hmode : t.mode ≠ .plainRef) (hforward : t.isForwardingCall = false)
    (canMove : Bool) : (t.passing canMove).2 = canMove ∧
      (canMove = false → (t.passing canMove).1 = .copy) := by
  cases hm : t.mode with
  | plainRef => exact absurd hm hmode
  | value => cases canMove <;> simp [Target.passing, hm, hforward]
  | moveRef => cases canMove <;> simp [Target.passing, hm, hforward]

/-- The fallback decides as the plan does, but it copies what the plan transfers. -/
theorem kind_fallbackDecision {d : UseDecision} (h : f.decideSite m settings facts s = .ok d) :
    (f.fallbackDecision s).kind = if d.transfers then .constructByCopy else d.kind := by
  rw [decideSite] at h
  rw [fallbackDecision]
  by_cases hk : s.kind = .moveOut
  case neg =>
    rw [if_pos hk, Except.ok.injEq] at h
    rw [if_pos hk, ← h]
    rfl
  rw [if_neg (not_not.2 hk)] at h ⊢
  obtain ⟨t, ht, h⟩ := bind_eq_ok.1 h
  rw [optionOr_eq_ok] at ht
  simp only [ht]
  cases hreturn : f.returnsForwarded s t with
  | true =>
    obtain ⟨hmode, hforward⟩ := of_returnsForwarded hreturn
    rw [if_pos hreturn, pure_eq_ok] at h
    simp [← h, hmode, hforward]
  | false =>
  simp only [hreturn, Bool.false_eq_true, ↓reduceIte] at h ⊢
  by_cases hmode : t.mode = .plainRef
  · rw [if_pos hmode] at h ⊢
    rw [← pure_eq_ok.1 h]
    rfl
  rw [if_neg hmode] at h ⊢
  cases hforward : t.isForwardingCall with
  | true =>
    rw [if_pos hforward, pure_eq_ok] at h
    simp [← h]
  | false =>
  simp only [hforward, Bool.false_eq_true, ↓reduceIte] at h ⊢
  obtain ⟨type, _, h⟩ := bind_eq_ok.1 h
  obtain ⟨capable, _, h⟩ := bind_eq_ok.1 h
  cases capable with
  | false => rw [← pure_eq_ok.1 h]; rfl
  | true =>
    obtain ⟨hgoes, hstays⟩ := passing_of_open hmode hforward (f.verdict settings facts s).1
    rw [← pure_eq_ok.1 h]
    dsimp only
    rw [hgoes]
    cases hcan : (f.verdict settings facts s).1 with
    | true => rfl
    | false => rw [hcan] at hstays; rw [hstays rfl]; rfl

theorem get?_fallbackPlan (wf : f.WellFormed) {ds : List Diagnostic}
    (h : f.fallbackPlan m settings ds = .ok fallback) (hs : s ∈ f.allSites) (hk : s.kind ≠ .decl) :
    fallback.decisions.get? s.id = some (f.fallbackDecision s) := by
  obtain ⟨_, _, h⟩ := bind_eq_ok.1 h
  obtain ⟨_, _, h⟩ := bind_eq_ok.1 h
  rw [pure_eq_ok] at h
  rw [← h, OrderedMap.get?_ofList]
  refine lastWrite_eq_some (List.mem_map_of_mem (mem_decidedSites.2 ⟨hs, hk⟩)) fun d hd => ?_
  obtain ⟨s', hs', heq⟩ := List.mem_map.1 hd
  rw [Prod.mk.injEq] at heq
  rw [← heq.2, wf.id_inj (mem_decidedSites.1 hs').1 hs heq.1]

/-- A write that every plan covers, and the move-out just before it. -/
def coveredWrite? (f : Function) (m : TypeModel) (s : Site) : Except Fault (Option (SiteId × Option SiteId)) :=
  match (s.binding.bind f.binding?).bind fun b => m.leafType? b s.path with
  | none => .ok none
  | some leaf => do
    if !(← m.assignRelevant leaf) then return none
    return some (s.id, ← f.assignSource s)

def sourced (e : SiteId × AssignPlan) : SiteId × Option SiteId := (e.1, e.2.sourceSite)

theorem coveredWrite?_of_assignPlan? {states : StatesOf} {destruction : OrderedMap Place DestructionPlan}
    (hn : s.binding = some name) {x : Option (SiteId × AssignPlan)}
    (h : f.assignPlan? m settings states destruction s name = .ok x) :
    f.coveredWrite? m s = .ok (x.map sourced) := by
  obtain ⟨b, hb, h⟩ := bind_eq_ok.1 h
  rw [getBinding, optionOr_eq_ok] at hb
  rw [coveredWrite?, hn, Option.bind_some, hb, Option.bind_some]
  cases hleaf : m.leafType? b s.path with
  | none =>
    simp only [hleaf, pure_eq_ok] at h
    rw [← h]
    rfl
  | some leaf =>
    simp only [hleaf] at h
    obtain ⟨relevant, hrelevant, h⟩ := bind_eq_ok.1 h
    refine bind_eq_ok.2 ⟨relevant, hrelevant, ?_⟩
    cases relevant with
    | false => rw [← pure_eq_ok.1 h]; rfl
    | true =>
      obtain ⟨_, _, h⟩ := bind_eq_ok.1 h
      obtain ⟨_, _, h⟩ := bind_eq_ok.1 h
      obtain ⟨source, hsource, h⟩ := bind_eq_ok.1 h
      exact bind_eq_ok.2 ⟨source, hsource, by rw [← pure_eq_ok.1 h]; rfl⟩

theorem coveredWrite?_of_fallbackAssign? {x : Option (SiteId × AssignPlan)}
    (h : f.fallbackAssign? m settings s = .ok x) : f.coveredWrite? m s = .ok (x.map sourced) := by
  rw [fallbackAssign?] at h
  rw [coveredWrite?]
  cases hn : s.binding with
  | none =>
    simp only [hn, Option.bind_none, pure_eq_ok] at h
    rw [← h]
    rfl
  | some name =>
  rw [Option.bind_some]
  cases hb : f.binding? name with
  | none =>
    simp only [hn, Option.bind_some, hb, Option.map_none, pure_eq_ok] at h
    rw [← h]
    rfl
  | some b =>
  simp only [hn, Option.bind_some, hb, Option.map_some] at h
  rw [Option.bind_some]
  cases hleaf : m.leafType? b s.path with
  | none =>
    simp only [hleaf, pure_eq_ok] at h
    rw [← h]
    rfl
  | some leaf =>
    simp only [hleaf] at h
    obtain ⟨relevant, hrelevant, h⟩ := bind_eq_ok.1 h
    refine bind_eq_ok.2 ⟨relevant, hrelevant, ?_⟩
    cases relevant with
    | false => rw [← pure_eq_ok.1 h]; rfl
    | true =>
      obtain ⟨_, _, h⟩ := bind_eq_ok.1 h
      obtain ⟨source, hsource, h⟩ := bind_eq_ok.1 h
      exact bind_eq_ok.2 ⟨source, hsource, by rw [← pure_eq_ok.1 h]; rfl⟩

theorem sources_ofList (plans : List (Option (SiteId × AssignPlan))) :
    (OrderedMap.ofList (plans.filterMap id)).mapEntries (fun _ => AssignPlan.sourceSite) =
      .ofList ((plans.map (Option.map sourced)).filterMap id) := by
  rw [mapEntries_ofList, List.filterMap_map, List.map_filterMap]
  rfl

/-- The plan and the fallback cover the same writes, with the same sources. -/
theorem sources_fallbackPlan {moves : List SiteId} {destruction : OrderedMap Place DestructionPlan}
    {assigns : OrderedMap SiteId AssignPlan} {ds : List Diagnostic}
    (h : f.assignPlans m settings moves destruction = .ok assigns)
    (hfallback : f.fallbackPlan m settings ds = .ok fallback) :
    assigns.mapEntries (fun _ => AssignPlan.sourceSite) =
      fallback.assigns.mapEntries fun _ => AssignPlan.sourceSite := by
  obtain ⟨own, hown, h⟩ := bind_eq_ok.1 h
  obtain ⟨_, _, hfallback⟩ := bind_eq_ok.1 hfallback
  obtain ⟨copies, hcopies, hfallback⟩ := bind_eq_ok.1 hfallback
  rw [pure_eq_ok] at h hfallback
  have hwrites : (f.allSites.filter (·.kind = .write)).mapM (f.coveredWrite? m) =
      .ok (own.map (Option.map sourced)) := by
    refine mapM_map_of_ok hown fun s _ x hx => ?_
    cases hn : s.binding with
    | none =>
      simp only [hn, Except.ok.injEq] at hx
      rw [coveredWrite?, hn, ← hx]
      rfl
    | some name =>
      simp only [hn] at hx
      exact coveredWrite?_of_assignPlan? hn hx
  have hcopied : (f.allSites.filter (·.kind = .write)).mapM (f.coveredWrite? m) =
      .ok (copies.map (Option.map sourced)) :=
    mapM_map_of_ok hcopies fun s _ x hx => coveredWrite?_of_fallbackAssign? hx
  rw [← h, ← hfallback, sources_ofList, sources_ofList, Except.ok.inj (hwrites.symm.trans hcopied)]

/-- What the plan of a function and its fallback agree on. -/
structure Agrees (f : Function) (plan fallback : FunctionPlan) : Prop where
  sites : ∀ id, plan.decisions.contains id = fallback.decisions.contains id
  /-- Where nothing moves, both make the same decision. -/
  stays : ∀ id d, plan.decisions.get? id = some d → d.transfers = false →
    ∃ d', fallback.decisions.get? id = some d' ∧ d'.kind = d.kind ∧ d'.transfers = false
  moves : ∀ id d, plan.decisions.get? id = some d → d.transfers = true →
    ∃ d', fallback.decisions.get? id = some d' ∧ d'.kind = .constructByCopy ∧ d'.transfers = false
  writes : ∀ id, (plan.assigns.get? id).map AssignPlan.sourceSite =
    (fallback.assigns.get? id).map AssignPlan.sourceSite
  bindings : ∀ name, f.bindings.contains name = true → ∃ d d',
    plan.destruction.get? { binding := name } = some d ∧
      fallback.destruction.get? { binding := name } = some d' ∧
      (d'.disposal.kind = .never → d.disposal.kind = .never)

theorem Planned.agrees (hp : f.Planned m settings plan) {ds : List Diagnostic}
    (h : f.fallbackPlan m settings ds = .ok fallback) : f.Agrees plan fallback := by
  obtain ⟨facts, _, hdecisions⟩ := hp.decided
  have hdecided : ∀ {id d}, plan.decisions.get? id = some d → ∃ d', fallback.decisions.get? id = some d' ∧
      d'.kind = (if d.transfers then .constructByCopy else d.kind) ∧ d'.transfers = false := by
    intro id d hd
    obtain ⟨s, hs, hk, rfl, hdecide⟩ := (get?_decisions hp.wf hdecisions).1 hd
    exact ⟨_, get?_fallbackPlan hp.wf h hs hk, kind_fallbackDecision hdecide, transfers_fallbackDecision s⟩
  constructor
  case sites =>
    intro id
    rw [Bool.eq_iff_iff, contains_of_decisions hdecisions, decidesAll_fallbackPlan h]
  case stays =>
    intro id d hd hstays
    obtain ⟨d', hd', hkind, hstays'⟩ := hdecided hd
    exact ⟨d', hd', by rw [hkind, hstays]; rfl, hstays'⟩
  case moves =>
    intro id d hd hmoves
    obtain ⟨d', hd', hkind, hstays'⟩ := hdecided hd
    exact ⟨d', hd', by rw [hkind, hmoves]; rfl, hstays'⟩
  case writes =>
    intro id
    have hsources := congrArg (·.get? id) (sources_fallbackPlan hp.assigns h)
    simpa only [OrderedMap.get?_mapEntries] using hsources
  case bindings =>
    intro name hname
    obtain ⟨b, hb⟩ := Option.isSome_iff_exists.1 hname
    obtain ⟨d, hd⟩ := hp.exists_plan hb
    obtain ⟨d', hd', howed⟩ :=
      exists_fallbackDestruction? (fallbackDestruction_of_fallbackPlan h) hb (hp.typed.binding hb)
    refine ⟨d, d', hd, hd', fun hnever' => ?_⟩
    by_contra hne
    obtain ⟨_, b', plans, _, hb', hplans, hmem⟩ := hp.bindingPlans hd
    obtain rfl : b = b' := Option.some.inj (hb.symm.trans hb')
    obtain ⟨howned, hneeds⟩ := owed_of_bindingPlans hplans hmem fun hnever => hne (by rw [hnever]; rfl)
    rw [root_type_of_bindingPlans hplans hmem] at hneeds
    rw [howed howned hneeds] at hnever'
    cases hnever'

/-- On a function that validation accepts the fallback exists, and the plan too if the paths can be followed
and the reports be put into words. They agree wherever nothing moves. -/
theorem agrees_fallbackPlan (ht : t.Built) (hv : f.validate (some (TypeModel.build t)) = .ok [])
    (mode : LastUseMode) (settings : Settings) (diagnostics : List Diagnostic) :
    (∃ fallback, f.fallbackPlan (TypeModel.build t) settings diagnostics = .ok fallback) ∧
    (f.Resolves (TypeModel.build t) → f.Legible → ∃ facts plan,
      f.lastUseFacts (TypeModel.build t) mode = .ok facts ∧
      f.ownPlan (TypeModel.build t) settings facts = .ok plan) ∧
    ∀ facts plan fallback, f.lastUseFacts (TypeModel.build t) mode = .ok facts →
      f.ownPlan (TypeModel.build t) settings facts = .ok plan →
      f.fallbackPlan (TypeModel.build t) settings diagnostics = .ok fallback →
      plan.excluded = false → f.Agrees plan fallback := by
  obtain ⟨-, -, hfallback, hanalysis, hruns, -, hlegible⟩ := runs_of_validate ht hv
  refine ⟨(hfallback settings diagnostics).imp fun _ h => h.1, fun paths legible => ?_, ?_⟩
  · obtain ⟨facts, hfacts⟩ := (hanalysis mode).2 paths
    obtain ⟨plan, hplan, -⟩ := ((hruns paths settings facts).2 fun _ _ => hlegible legible _).plan
    exact ⟨facts, plan, hfacts, hplan⟩
  · intro facts plan fallback hfacts hplan hfallback hx
    obtain ⟨hp, -⟩ := planned_of_ownPlan (wellFormed_of_validate hv rfl) (typed_of_validate hv rfl) hfacts hplan hx
    exact hp.agrees hfallback

def movedOn : Function :=
  (Script.run .standard "f" .empty [
    .declare "s" (.named "Str"),
    .declare "t" (.named "Str"),
    .assign "t" (.place "s") false,
    .access .read "t",
    .moveOut (.place "t") (some (.argument "g" 0 .value false false)) false false,
    .ret .value []]).function

theorem agrees_movedOn : ∃ facts plan fallback,
    movedOn.lastUseFacts (TypeModel.build .standard) .fixpoint = .ok facts ∧
      movedOn.ownPlan (TypeModel.build .standard) {} facts = .ok plan ∧
      movedOn.fallbackPlan (TypeModel.build .standard) {} [] = .ok fallback ∧
      plan.excluded = false ∧ plan.moves = [2, 5] ∧ movedOn.Agrees plan fallback := by
  have hvalid : movedOn.validate (some (TypeModel.build .standard)) = .ok [] := by decide +kernel
  obtain ⟨⟨fallback, hfallback⟩, hexists, hagrees⟩ :=
    agrees_fallbackPlan TypeTable.standard_built hvalid .fixpoint {} []
  have paths : movedOn.Resolves (TypeModel.build .standard) :=
    resolves_of_validate (by decide +kernel) hvalid rfl
  obtain ⟨facts, plan, hfacts, hplan⟩ := hexists paths (by decide +kernel)
  have hrun : ((liftType (movedOn.lastUseFacts (TypeModel.build .standard) .fixpoint)) >>= fun facts =>
      movedOn.ownPlan (TypeModel.build .standard) {} facts).toOption.map
        (fun plan => (plan.excluded, plan.moves)) = some (false, [2, 5]) := by decide +kernel
  simp only [hfacts, liftType, bind, Except.bind, hplan, Except.toOption, Option.map_some,
    Option.some.injEq, Prod.mk.injEq] at hrun
  exact ⟨facts, plan, fallback, hfacts, hplan, hfallback, hrun.1, hrun.2,
    hagrees facts plan fallback hfacts hplan hfallback hrun.1⟩

end Function
end MovePlan
