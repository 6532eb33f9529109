import MovePlan.Plan.Analyze
import MovePlan.Proofs.Analysis.MoveState
import MovePlan.Proofs.Flow.Legible
import MovePlan.Proofs.Types.Registered

set_option autoImplicit false

/-!
# What stands behind a plan

A plan that is not the fallback comes from a well-formed function, from the facts of its accesses, and
from sites that were decided one by one. No access was found to use a moved value.
-/
namespace MovePlan
namespace Function
variable {f : Function} {m : TypeModel} {settings : Settings} {plan : FunctionPlan}

/-- The parts of a plan that is not the fallback. -/
structure Planned (f : Function) (m : TypeModel) (settings : Settings) (plan : FunctionPlan) : Prop where
  wf : f.WellFormed
  typed : f.Typed m
  decided : ∃ facts, f.lastUseFacts m settings.lastUseMode = .ok facts ∧
    f.decisions m settings facts = .ok plan.decisions
  uses : ∃ ds, f.checkUseAfterMove plan.moves = .ok ds ∧ hasErrors ds = false
  destruction : f.destructionPlans m plan.moves = .ok plan.destruction
  assigns : f.assignPlans m settings plan.moves plan.destruction = .ok plan.assigns

theorem excluded_fallbackPlan {ds : List Diagnostic} (h : f.fallbackPlan m settings ds = .ok plan) :
    plan.excluded = true := by
  obtain ⟨_, _, h⟩ := bind_eq_ok.1 h
  obtain ⟨_, _, h⟩ := bind_eq_ok.1 h
  rw [pure_eq_ok] at h
  rw [← h]

theorem planFunction_eq (f : Function) (m : TypeModel) (settings : Settings) :
    planFunction m settings f = do
      let plan ← f.bodyPlan m settings
      let inner ← planFunctions m settings f.nested
      return { plan with nested := inner } := by
  cases f
  rw [planFunction]

theorem valid_of_bodyPlan (h : f.bodyPlan m settings = .ok plan) (hx : plan.excluded = false) :
    ∃ ds, f.validate (some m) = .ok ds ∧ hasErrors ds = false := by
  obtain ⟨ds, hvalid, h⟩ := bind_eq_ok.1 h
  split at h
  · rw [excluded_fallbackPlan h] at hx
    cases hx
  next herrors => exact ⟨ds, hvalid, by rwa [Bool.not_eq_true] at herrors⟩

theorem planned_of_ownPlan (wf : f.WellFormed) (typed : f.Typed m) {mode : LastUseMode} {facts : LastUseFacts}
    (hfacts : f.lastUseFacts m mode = .ok facts) (h : f.ownPlan m settings facts = .ok plan)
    (hx : plan.excluded = false) :
    f.Planned m { settings with lastUseMode := mode } plan ∧ plan.facts = some facts ∧
      f.decisions m settings facts = .ok plan.decisions := by
  obtain ⟨decisions, hdecisions, h⟩ := bind_eq_ok.1 h
  obtain ⟨ds, huses, h⟩ := bind_eq_ok.1 h
  split at h
  · rw [excluded_fallbackPlan h] at hx
    cases hx
  next huse =>
  rw [Bool.not_eq_true] at huse
  obtain ⟨destruction, hdestruction, h⟩ := bind_eq_ok.1 h
  obtain ⟨assigns, hassigns, h⟩ := bind_eq_ok.1 h
  rw [pure_eq_ok] at h
  subst h
  refine ⟨?_, rfl, hdecisions⟩
  exact
    { wf := wf
      typed := typed
      decided := ⟨facts, hfacts, hdecisions⟩
      uses := ⟨ds, huses, huse⟩
      destruction := hdestruction
      assigns := hassigns }

theorem own_of_bodyPlan (h : f.bodyPlan m settings = .ok plan) (hx : plan.excluded = false) :
    f.WellFormed ∧ f.Typed m ∧ ∃ facts own, f.lastUseFacts m settings.lastUseMode = .ok facts ∧
      f.ownPlan m settings facts = .ok own ∧ plan = { own with diagnostics := plan.diagnostics } := by
  obtain ⟨defects, hvalid, h⟩ := bind_eq_ok.1 h
  split at h
  · rw [excluded_fallbackPlan h] at hx
    cases hx
  next herrors =>
  rw [Bool.not_eq_true] at herrors
  obtain ⟨warnings, _, h⟩ := bind_eq_ok.1 h
  split at h
  · rw [excluded_fallbackPlan h] at hx
    cases hx
  obtain ⟨facts, hfacts, h⟩ := bind_eq_ok.1 h
  obtain ⟨own, hown, h⟩ := bind_eq_ok.1 h
  rw [pure_eq_ok] at h
  exact ⟨wellFormed_of_validate hvalid herrors, typed_of_validate hvalid herrors, facts, own,
    liftType_eq_ok.1 hfacts, hown, by rw [← h]⟩

theorem planned_of_bodyPlan (h : f.bodyPlan m settings = .ok plan) (hx : plan.excluded = false) :
    f.Planned m settings plan := by
  obtain ⟨wf, typed, facts, own, hfacts, hown, heq⟩ := own_of_bodyPlan h hx
  rw [heq] at hx ⊢
  have hp := (planned_of_ownPlan wf typed hfacts hown hx).1
  exact ⟨hp.wf, hp.typed, hp.decided, hp.uses, hp.destruction, hp.assigns⟩

theorem fallback_of_bodyPlan (h : f.bodyPlan m settings = .ok plan) (hx : plan.excluded = true) :
    ∃ ds own, f.fallbackPlan m settings ds = .ok own ∧ plan.destruction = own.destruction := by
  obtain ⟨defects, _, h⟩ := bind_eq_ok.1 h
  split at h
  · exact ⟨_, plan, h, rfl⟩
  obtain ⟨warnings, _, h⟩ := bind_eq_ok.1 h
  split at h
  · exact ⟨_, plan, h, rfl⟩
  obtain ⟨facts, _, h⟩ := bind_eq_ok.1 h
  obtain ⟨own, hown, h⟩ := bind_eq_ok.1 h
  rw [pure_eq_ok] at h
  subst h
  obtain ⟨_, _, hown⟩ := bind_eq_ok.1 hown
  obtain ⟨_, _, hown⟩ := bind_eq_ok.1 hown
  split at hown
  · exact ⟨_, own, hown, rfl⟩
  · obtain ⟨_, _, hown⟩ := bind_eq_ok.1 hown
    obtain ⟨_, _, hown⟩ := bind_eq_ok.1 hown
    rw [pure_eq_ok] at hown
    subst hown
    cases hx

theorem fallbackDestruction_of_fallbackPlan {ds : List Diagnostic}
    (h : f.fallbackPlan m settings ds = .ok plan) : f.fallbackDestruction m = .ok plan.destruction := by
  obtain ⟨destruction, hdestruction, h⟩ := bind_eq_ok.1 h
  obtain ⟨_, _, h⟩ := bind_eq_ok.1 h
  rw [pure_eq_ok] at h
  rw [← h]
  exact hdestruction

theorem fallbackDestruction_of_planFunction (h : planFunction m settings f = .ok plan)
    (hx : plan.excluded = true) : f.fallbackDestruction m = .ok plan.destruction := by
  rw [planFunction_eq] at h
  obtain ⟨body, hbody, h⟩ := bind_eq_ok.1 h
  obtain ⟨inner, _, h⟩ := bind_eq_ok.1 h
  rw [pure_eq_ok] at h
  subst h
  obtain ⟨_, own, hown, heq⟩ := fallback_of_bodyPlan hbody hx
  change f.fallbackDestruction m = .ok body.destruction
  rw [heq]
  exact fallbackDestruction_of_fallbackPlan hown

theorem valid_of_planFunction (h : planFunction m settings f = .ok plan) (hx : plan.excluded = false) :
    ∃ ds, f.validate (some m) = .ok ds ∧ hasErrors ds = false := by
  rw [planFunction_eq] at h
  obtain ⟨own, hown, h⟩ := bind_eq_ok.1 h
  obtain ⟨inner, _, h⟩ := bind_eq_ok.1 h
  rw [pure_eq_ok] at h
  subst h
  exact valid_of_bodyPlan hown hx

theorem declaredInside_of_planFunction (hkeyed : f.Keyed) (h : planFunction m settings f = .ok plan)
    (hx : plan.excluded = false) : f.DeclaredInside := by
  obtain ⟨ds, hvalid, herrors⟩ := valid_of_planFunction h hx
  exact declaredInside_of_validate hkeyed hvalid herrors

/-- The plan of a function, nested functions and all, is made of its own parts. -/
theorem planned_of_planFunction (h : planFunction m settings f = .ok plan)
    (hx : plan.excluded = false) : f.Planned m settings plan := by
  rw [planFunction_eq] at h
  obtain ⟨own, hown, h⟩ := bind_eq_ok.1 h
  obtain ⟨inner, _, h⟩ := bind_eq_ok.1 h
  rw [pure_eq_ok] at h
  subst h
  have hp := planned_of_bodyPlan hown hx
  exact ⟨hp.wf, hp.typed, hp.decided, hp.uses, hp.destruction, hp.assigns⟩

theorem facts_of_planFunction (h : planFunction m settings f = .ok plan) (hx : plan.excluded = false) :
    ∃ facts, plan.facts = some facts ∧ f.lastUseFacts m settings.lastUseMode = .ok facts ∧
      f.decisions m settings facts = .ok plan.decisions := by
  rw [planFunction_eq] at h
  obtain ⟨body, hbody, h⟩ := bind_eq_ok.1 h
  obtain ⟨inner, _, h⟩ := bind_eq_ok.1 h
  rw [pure_eq_ok] at h
  subst h
  obtain ⟨wf, typed, facts, own, hfacts, hown, heq⟩ := own_of_bodyPlan hbody hx
  rw [heq] at hx ⊢
  obtain ⟨_, hcarried, hdecisions⟩ := planned_of_ownPlan wf typed hfacts hown hx
  exact ⟨facts, hcarried, hfacts, hdecisions⟩

theorem mem_moves {id : SiteId} :
    id ∈ plan.moves ↔ ∃ d, plan.decisions.get? id = some d ∧ d.transfers = true := by
  simp only [FunctionPlan.moves, List.mem_map, List.mem_filter, Prod.exists, exists_and_right,
    exists_eq_right, OrderedMap.get?_eq_some_iff]

theorem Planned.decideSite (hp : f.Planned m settings plan) {s : Site} (hs : s ∈ f.allSites)
    {d : UseDecision} (hd : plan.decisions.get? s.id = some d) :
    ∃ facts, f.lastUseFacts m settings.lastUseMode = .ok facts ∧
      f.decideSite m settings facts s = .ok d := by
  obtain ⟨facts, hfacts, hdecisions⟩ := hp.decided
  obtain ⟨entries, hentries, hmap⟩ := bind_eq_ok.1 hdecisions
  rw [pure_eq_ok] at hmap
  rw [← hmap, OrderedMap.get?_ofList] at hd
  obtain ⟨t, ht, hpair⟩ := mem_of_mapM hentries (mem_of_lastWrite hd)
  obtain ⟨d', hd', hpair⟩ := bind_eq_ok.1 hpair
  rw [pure_eq_ok, Prod.mk.injEq] at hpair
  obtain ⟨hid, rfl⟩ := hpair
  obtain rfl := hp.wf.id_inj (List.mem_filter.1 ht).1 hs hid
  exact ⟨facts, hfacts, hd'⟩

theorem canMove_of_passing {t : Target} {canMove : Bool} (h : (t.passing canMove).2 = true) :
    canMove = true := by
  cases canMove with
  | true => rfl
  | false =>
    simp only [Target.passing] at h
    split at h
    · cases h
    · split at h <;> simp at h
    · split at h <;> simp at h

theorem of_decideSite {facts : LastUseFacts} {s : Site} {d : UseDecision}
    (h : f.decideSite m settings facts s = .ok d) (ht : d.transfers = true) :
    s.kind = .moveOut ∧ (f.verdict settings facts s).1 = true := by
  rw [Function.decideSite] at h
  split at h
  · rw [Except.ok.injEq] at h
    rw [← h] at ht
    cases ht
  next hk =>
  refine ⟨by simpa using hk, ?_⟩
  obtain ⟨t, _, h⟩ := bind_eq_ok.1 h
  split at h
  · rw [pure_eq_ok] at h
    rw [← h] at ht
    cases ht
  split at h
  · rw [pure_eq_ok] at h
    rw [← h] at ht
    cases ht
  split at h
  · rw [pure_eq_ok] at h
    rw [← h] at ht
    cases ht
  obtain ⟨type, _, h⟩ := bind_eq_ok.1 h
  obtain ⟨capable, _, h⟩ := bind_eq_ok.1 h
  split at h
  · rw [pure_eq_ok] at h
    rw [← h] at ht
    cases ht
  rw [pure_eq_ok] at h
  rw [← h] at ht
  exact canMove_of_passing ht

/-- A named binding is moved out of by its owner only, at a last use or explicitly. -/
theorem of_verdict {facts : LastUseFacts} {s : Site} {name : String} {b : Binding}
    (hn : s.binding = some name) (hb : f.binding? name = some b)
    (h : (f.verdict settings facts s).1 = true) :
    f.ownership b = .owned ∧ (facts.isMoveCandidate s.id = true ∨ s.explicit = true) := by
  rw [verdict, hn, Option.bind_some, hb, Option.map_some] at h
  cases ho : f.ownership b with
  | borrowed => simp [ho] at h
  | captured => simp [ho] at h
  | owned =>
    refine ⟨rfl, ?_⟩
    simp only [ho, ownedVerdict] at h
    split at h
    · split at h
      next hc =>
        rw [Bool.and_eq_true] at hc
        exact .inl hc.2
      next => cases h
    · split at h
      next he => exact .inr he
      next =>
        split at h
        next hc => exact .inl hc
        next => split at h <;> (try split at h) <;> cases h

theorem Planned.of_mem_moves (hp : f.Planned m settings plan) {s : Site} (hs : s ∈ f.allSites)
    {name : String} {b : Binding} (hn : s.binding = some name) (hb : f.binding? name = some b)
    (h : s.id ∈ plan.moves) :
    s.kind = .moveOut ∧ f.ownership b = .owned ∧
      ((∃ facts, f.lastUseFacts m settings.lastUseMode = .ok facts ∧
        facts.isMoveCandidate s.id = true) ∨ s.explicit = true) := by
  obtain ⟨d, hd, ht⟩ := mem_moves.1 h
  obtain ⟨facts, hfacts, hdecide⟩ := hp.decideSite hs hd
  obtain ⟨hk, hv⟩ := of_decideSite hdecide ht
  obtain ⟨howned, hreason⟩ := of_verdict hn hb hv
  exact ⟨hk, howned, hreason.imp_left fun hc => ⟨facts, hfacts, hc⟩⟩

theorem moveNote?_eq_some {p : Place} {s : Site} {note : String} : moveNote? p s = some note ↔
    ∃ span site, s.span.render? = some span ∧ s.describe? = some site ∧
      s!"'{p.render}' moved at {span} ({site})" = note := by
  simp only [moveNote?, Option.bind_eq_bind, Option.bind_eq_some_iff, Option.pure_def, Option.some.injEq]
  constructor
  · rintro ⟨span, hspan, site, hsite, h⟩
    exact ⟨span, site, hspan, hsite, h⟩
  · rintro ⟨span, site, hspan, hsite, h⟩
    exact ⟨span, hspan, site, hsite, h⟩

theorem isSome_moveNote? {p : Place} {s : Site} : (moveNote? p s).isSome = true ↔ s.Legible := by
  simp only [Option.isSome_iff_exists, moveNote?_eq_some]
  constructor
  · rintro ⟨_, span, site, hspan, hsite, -⟩
    exact ⟨by rw [hsite]; rfl, by rw [hspan]; rfl⟩
  · rintro ⟨hsite, hspan⟩
    obtain ⟨site, hsite⟩ := Option.isSome_iff_exists.1 hsite
    obtain ⟨span, hspan⟩ := Option.isSome_iff_exists.1 hspan
    exact ⟨_, span, site, hspan, hsite, rfl⟩

theorem useAfterMove?_eq_some {movers : List Site} {r : PlaceStates} {s : Site} {d : Diagnostic} :
    f.useAfterMove? movers r s = some d ↔ ∃ site notes, s.describe? = some site ∧
      movers.mapM (moveNote? r.place) = some notes ∧
      { message := s!"use of {goneWord r s} value '{r.place.render}' in '{f.name}' ({site})"
        code := some "E_USE_AFTER_MOVE"
        phase := some "moves"
        span := s.span
        notes := notes } = d := by
  simp only [useAfterMove?, Option.bind_eq_bind, Option.bind_eq_some_iff, Option.pure_def, Option.some.injEq]
  constructor
  · rintro ⟨site, hsite, notes, hnotes, h⟩
    exact ⟨site, notes, hsite, hnotes, h⟩
  · rintro ⟨site, notes, hsite, hnotes, h⟩
    exact ⟨site, hsite, notes, hnotes, h⟩

theorem isError_of_useAfterMove? {movers : List Site} {r : PlaceStates} {s : Site} {d : Diagnostic}
    (h : f.useAfterMove? movers r s = some d) : d.isError = true := by
  obtain ⟨_, _, _, _, rfl⟩ := useAfterMove?_eq_some.1 h
  rfl

theorem exists_getSite (wf : f.WellFormed) {s : Site} (hs : s ∈ f.allSites) : f.getSite s.id = .ok s :=
  optionOr_eq_ok.2 (wf.site?_eq hs)

theorem mem_explicitMoves (wf : f.WellFormed) {moves : List SiteId} {movers : List Site}
    (h : f.explicitMoves moves = .ok movers) {s : Site} :
    s ∈ movers ↔ s ∈ f.allSites ∧ s.id ∈ moves ∧ s.explicit = true := by
  obtain ⟨sites, hsites, h⟩ := bind_eq_ok.1 h
  rw [pure_eq_ok] at h
  rw [← h, List.mem_filter, ← and_assoc]
  refine and_congr_left fun _ => ?_
  constructor
  · intro hs
    obtain ⟨id, hid, hget⟩ := mem_of_mapM hsites hs
    rw [getSite, optionOr_eq_ok] at hget
    have hfound := List.find?_some hget
    rw [decide_eq_true_eq] at hfound
    exact ⟨List.mem_of_find?_eq_some hget, hfound ▸ (mem_sortBy _ _ _).1 hid⟩
  · rintro ⟨hs, hid⟩
    obtain ⟨x, hx, hget⟩ := exists_mem_of_mapM hsites ((mem_sortBy _ _ _).2 hid)
    rw [exists_getSite wf hs, Except.ok.injEq] at hget
    exact hget ▸ hx

theorem mem_movedPlaces {movers : List Site} {place : Place} :
    place ∈ movedPlaces movers ↔ ∃ u ∈ movers, u.binding = some place.binding ∧ u.path = place.path := by
  rw [movedPlaces, mem_sortBy, mem_distinct, List.mem_filterMap]
  refine exists_congr fun u => and_congr_right fun _ => ?_
  rw [Option.map_eq_some_iff]
  constructor
  · rintro ⟨n, hn, rfl⟩
    exact ⟨hn, rfl⟩
  · rintro ⟨hn, hpath⟩
    exact ⟨place.binding, hn, by rw [hpath]⟩

theorem isUseOfMoved_of_check (wf : f.WellFormed) {moves : List SiteId} {ds : List Diagnostic}
    (h : f.checkUseAfterMove moves = .ok ds) (hd : hasErrors ds = false) {u s : Site} {name : String}
    (hu : u ∈ f.allSites) (hmoves : u.id ∈ moves) (he : u.explicit = true)
    (hn : u.binding = some name) (hs : s ∈ f.sitesOf name) :
    ∃ r, f.placeStatesIn f.graph moves { binding := name, path := u.path } = .ok r ∧
      isUseOfMoved r s = false := by
  obtain ⟨movers, hmovers, h⟩ := bind_eq_ok.1 h
  obtain ⟨reports, hreports, h⟩ := bind_eq_ok.1 h
  rw [pure_eq_ok] at h
  have hplace : ({ binding := name, path := u.path } : Place) ∈ movedPlaces movers :=
    mem_movedPlaces.2 ⟨u, (mem_explicitMoves wf hmovers).2 ⟨hu, hmoves, he⟩, hn, rfl⟩
  obtain ⟨report, hreport, hr⟩ := exists_mem_of_mapM hreports hplace
  obtain ⟨r, hstates, hr⟩ := bind_eq_ok.1 hr
  refine ⟨r, hstates, ?_⟩
  by_contra huse
  rw [Bool.not_eq_false] at huse
  obtain ⟨d, hd', hdiag⟩ := exists_mem_of_mapM hr (List.mem_filter.2 ⟨hs, huse⟩)
  rw [optionOr_eq_ok] at hdiag
  rw [hasErrors, List.any_eq_false] at hd
  exact hd d (h ▸ List.mem_flatten.2 ⟨report, hreport, hd'⟩) (isError_of_useAfterMove? hdiag)

end Function
end MovePlan
