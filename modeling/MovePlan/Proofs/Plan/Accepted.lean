import MovePlan.Flow.Script
import MovePlan.Proofs.Flow.Dominator
import MovePlan.Proofs.Plan.Total

set_option autoImplicit false

namespace MovePlan

theorem OrderedMap.contains_ofList {κ α : Type} [DecidableEq κ] (es : List (κ × α)) (k : κ) :
    (ofList es).contains k = true ↔ ∃ v, (k, v) ∈ es := by
  rw [contains, get?_ofList, Option.isSome_iff_exists]
  constructor
  · rintro ⟨v, hv⟩
    exact ⟨v, mem_of_lastWrite hv⟩
  · rintro ⟨v, hv⟩
    exact exists_lastWrite hv

namespace Function
variable {f : Function} {t : TypeTable} {m : TypeModel} {settings : Settings} {plan : FunctionPlan}

/-- What the analyses look up by number is there. -/
structure Indexed (f : Function) : Prop where
  entry : f.entry ∈ f.graph.order
  block : ∀ {id : BlockId}, id ∈ f.graph.order → ∃ blk, f.getBlock id = .ok blk
  edge : ∀ {id : BlockId} {e : Edge}, e ∈ f.edgesAt id → e.dst ∈ f.graph.order
  pred : ∀ {id p : BlockId}, p ∈ f.graph.predsOf id → p ∈ f.graph.order
  reached : ∀ {id : BlockId}, id ∈ f.graph.reached → id ∈ f.graph.order
  loop : ∀ {id : BlockId}, id ∈ f.labelLoopBlocks → id ∈ f.graph.order
  exit : ∀ {b : Binding} {x : ScopeExit}, x ∈ f.scopeExits f.graph b → x.block ∈ f.graph.order
  site : ∀ {s : Site}, s ∈ f.allSites → f.getSite s.id = .ok s
  position : ∀ {s : Site}, s ∈ f.allSites →
    s.block ∈ f.graph.order ∧ entryAt? (f.sitesAt s.block) s.index = some s
  /-- In both modes liveness is known after every site of a binding. -/
  live : ∀ (mode : LastUseMode) {name : String} (b : Binding) {s : Site}, s ∈ f.sitesOf name →
    ∃ x, lastWrite s.id (f.liveTable mode name b) = some x
  dominator : ∀ {id : BlockId}, id ∈ f.graph.order → id ∈ f.dominators.sets.keys ∧
    ∀ a ∈ f.dominators.of id, a ∈ f.dominators.sets.keys

/-- The iterations end: each value is what recomputing it gives. -/
structure Settled (f : Function) : Prop where
  liveness : ∀ (name : String) (b : Binding) {id : BlockId}, id ∈ f.graph.order →
    (f.liveness f.graph name b).at? {} id =
      f.livenessStep name b ((f.liveness f.graph name b).at? {}) id
  exposure : ∀ (name : String) {id : BlockId}, id ∈ f.graph.order →
    (f.exposure f.graph name).at? false id =
      f.exposureStep f.graph name ((f.exposure f.graph name).at? false) id
  states : ∀ (moves : List SiteId) (place : Place) (b : Binding) {id : BlockId}, id ∈ f.graph.order →
    (f.statesAtEnd f.graph moves place b).at? .empty id =
      f.statesStep f.graph moves place b ((f.statesAtEnd f.graph moves place b).at? .empty) id
  dominators : ∀ {id : BlockId}, id ∈ f.graph.order →
    f.dominators.of id = dominatorStep f.entry f.graph f.dominators.of id

theorem keys_dominators (wf : f.WellFormed) : f.dominators.sets.keys = f.graph.order := by
  rw [dominators]
  simp [wf.entry]

theorem mem_order_of_dominator {a id : BlockId} (hid : id ∈ f.graph.order)
    (ha : a ∈ f.dominators.of id) : a ∈ f.graph.order := by
  rw [graph_order, mem_orderedBlocks] at hid
  rw [dominators_fixed hid] at ha
  have halone : a ∈ [id] → a ∈ f.graph.order := by
    intro h
    rw [List.mem_singleton.1 h, graph_order, mem_orderedBlocks]
    exact hid
  simp only [dominatorStep] at ha
  split at ha
  · exact halone ha
  · split at ha
    · exact halone ha
    · exact (List.mem_filter.1 ha).1

theorem exists_liveTable (wf : f.WellFormed) (mode : LastUseMode) {name : String} (b : Binding) {s : Site}
    (hs : s ∈ f.sitesOf name) : ∃ x, lastWrite s.id (f.liveTable mode name b) = some x := by
  cases mode with
  | fixpoint =>
    obtain ⟨hall, hn⟩ := mem_sitesOf.1 hs
    obtain ⟨x, hx, -⟩ := liveAfter_liveness (b := b) wf hall hn
    exact ⟨x, hx⟩
  | blockLocal =>
    have hmem : (s.id, true) ∈ (f.sitesOf name).map fun s => (s.id, true) :=
      List.mem_map_of_mem (f := fun s : Site => (s.id, true)) hs
    apply exists_lastWrite (v := true)
    change (s.id, true) ∈ f.liveAfterLocally name
    simp only [liveAfterLocally]
    split
    · split
      · exact hmem
      · exact List.mem_append_left _ hmem
    · exact hmem

theorem WellFormed.indexed (wf : f.WellFormed) : f.Indexed := by
  have horder : ∀ {id : BlockId}, id ∈ f.graph.order ↔ f.hasBlock id = true := mem_orderedBlocks
  constructor
  case entry => exact horder.2 wf.entry
  case block =>
    intro id hid
    obtain ⟨blk, hb⟩ := hasBlock_iff.1 (horder.1 hid)
    exact ⟨blk, optionOr_eq_ok.2 hb⟩
  case edge => exact fun he => horder.2 (wf.target he)
  case pred =>
    intro id p hp
    obtain ⟨e, he, -⟩ := mem_successors.1 (mem_predsOf.1 hp).2
    exact horder.2 (hasBlock_of_mem_edgesAt he)
  case reached => exact fun hid => horder.2 (mem_reachable.1 hid).1
  case loop =>
    intro id hid
    obtain ⟨p, _, hp⟩ := List.mem_flatMap.1 hid
    have hafter : id ∈ f.reachableFrom p.2 := by
      dsimp only at hp
      split at hp
      · exact (List.mem_filter.1 hp).1
      · simp at hp
    exact horder.2 (mem_reachableFrom.1 hafter).1
  case exit =>
    intro b x hx
    obtain ⟨e, he, hx⟩ := List.mem_flatMap.1 hx
    have hblock : x.block = e.1 := by
      split at hx
      · rw [List.mem_singleton.1 hx]
      · obtain ⟨_, _, rfl⟩ := List.mem_map.1 hx
        rfl
    rw [hblock, horder]
    exact hasBlock_iff.2 ⟨e.2, mem_sortedBlocks.1 (List.mem_filter.1 he).1⟩
  case site => exact fun hs => exists_getSite wf hs
  case position =>
    intro s hs
    have hmem := wf.mem_sitesAt hs
    obtain ⟨i, hi⟩ := List.mem_iff_getElem?.1 hmem
    have hindex : s.index = (i : ℤ) := wf.index hi
    refine ⟨horder.2 (hasBlock_of_mem_sitesAt hmem), ?_⟩
    rw [hindex, entryAt?, if_pos (Int.natCast_nonneg i), Int.toNat_natCast]
    exact hi
  case live => exact fun mode _ b _ hs => exists_liveTable wf mode b hs
  case dominator =>
    intro id hid
    rw [keys_dominators wf]
    exact ⟨hid, fun a ha => mem_order_of_dominator hid ha⟩

theorem settled (f : Function) : f.Settled where
  liveness := fun _ _ _ hid => liveness_fixed (mem_orderedBlocks.1 hid)
  exposure := fun _ _ hid => exposure_fixed (mem_orderedBlocks.1 hid)
  states := fun _ _ _ _ hid => statesAtEnd_fixed (mem_orderedBlocks.1 hid)
  dominators := fun hid => dominators_fixed (mem_orderedBlocks.1 hid)

/-- The plan decides the sites that are no declarations, and nothing else. -/
def DecidesAll (f : Function) (plan : FunctionPlan) : Prop :=
  ∀ id, plan.decisions.contains id = true ↔ ∃ s ∈ f.allSites, s.kind ≠ .decl ∧ s.id = id

theorem mem_decidedSites {s : Site} : s ∈ f.decidedSites ↔ s ∈ f.allSites ∧ s.kind ≠ .decl := by
  simp [decidedSites]

theorem contains_of_decisions {facts : LastUseFacts} {ds : OrderedMap SiteId UseDecision}
    (h : f.decisions m settings facts = .ok ds) (id : SiteId) :
    ds.contains id = true ↔ ∃ s ∈ f.allSites, s.kind ≠ .decl ∧ s.id = id := by
  obtain ⟨entries, hentries, h⟩ := bind_eq_ok.1 h
  rw [pure_eq_ok] at h
  rw [← h, OrderedMap.contains_ofList]
  constructor
  · rintro ⟨d, hd⟩
    obtain ⟨s, hs, hpair⟩ := mem_of_mapM hentries hd
    obtain ⟨_, _, hpair⟩ := bind_eq_ok.1 hpair
    rw [pure_eq_ok, Prod.mk.injEq] at hpair
    obtain ⟨hall, hk⟩ := mem_decidedSites.1 hs
    exact ⟨s, hall, hk, hpair.1⟩
  · rintro ⟨s, hs, hk, rfl⟩
    obtain ⟨p, hp, hpair⟩ := exists_mem_of_mapM hentries (mem_decidedSites.2 ⟨hs, hk⟩)
    obtain ⟨d, _, hpair⟩ := bind_eq_ok.1 hpair
    rw [pure_eq_ok] at hpair
    exact ⟨d, hpair ▸ hp⟩

theorem decidesAll_fallbackPlan {ds : List Diagnostic} (h : f.fallbackPlan m settings ds = .ok plan) :
    f.DecidesAll plan := by
  obtain ⟨_, _, h⟩ := bind_eq_ok.1 h
  obtain ⟨_, _, h⟩ := bind_eq_ok.1 h
  rw [pure_eq_ok] at h
  intro id
  rw [← h]
  simp only [OrderedMap.contains_ofList, List.mem_map, mem_decidedSites, Prod.mk.injEq]
  constructor
  · rintro ⟨_, s, ⟨hs, hk⟩, hid, _⟩
    exact ⟨s, hs, hk, hid⟩
  · rintro ⟨s, hs, hk, hid⟩
    exact ⟨_, s, ⟨hs, hk⟩, hid, rfl⟩

theorem decidesAll_ownPlan {facts : LastUseFacts} (h : f.ownPlan m settings facts = .ok plan) :
    f.DecidesAll plan := by
  obtain ⟨ds, hds, h⟩ := bind_eq_ok.1 h
  obtain ⟨uses, _, h⟩ := bind_eq_ok.1 h
  split at h
  · exact decidesAll_fallbackPlan h
  · obtain ⟨_, _, h⟩ := bind_eq_ok.1 h
    obtain ⟨_, _, h⟩ := bind_eq_ok.1 h
    rw [pure_eq_ok] at h
    rw [← h]
    exact contains_of_decisions hds

/-- Every pass of the engine answers on the facts, and the plan decides what it should. -/
structure Runs (f : Function) (m : TypeModel) (settings : Settings) (facts : LastUseFacts) : Prop where
  decide : ∃ ds, f.decisions m settings facts = .ok ds
  check : ∀ ds, f.decisions m settings facts = .ok ds →
    ∃ uses, f.checkUseAfterMove (transferring ds) = .ok uses
  destruction : ∀ ds, f.decisions m settings facts = .ok ds →
    ∃ plans, f.destructionPlans m (transferring ds) = .ok plans
  assigns : ∀ moves destruction, ∃ plans, f.assignPlans m settings moves destruction = .ok plans
  plan : ∃ plan, f.ownPlan m settings facts = .ok plan ∧ f.DecidesAll plan

theorem runs_iff (ht : t.FieldsRegistered) (wf : f.WellFormed) (typed : f.Typed (TypeModel.build t))
    (paths : f.Resolves (TypeModel.build t)) (settings : Settings) (facts : LastUseFacts) :
    f.Runs (TypeModel.build t) settings facts ↔
      ∀ ds, f.decisions (TypeModel.build t) settings facts = .ok ds → f.ReportsLegible (transferring ds) := by
  constructor
  · intro h ds hds
    exact (exists_checkUseAfterMove_iff wf (exists_site_of_moves hds)).1 (h.check ds hds)
  · intro h
    constructor
    case decide => exact exists_decisions wf typed paths ht facts
    case check => exact fun ds hds => (exists_checkUseAfterMove_iff wf (exists_site_of_moves hds)).2 (h ds hds)
    case destruction => exact fun _ hds => exists_destructionPlans wf typed paths ht (exists_site_of_moves hds)
    case assigns => exact fun _ destruction => exists_assignPlans wf ht destruction
    case plan =>
      obtain ⟨plan, hplan⟩ := (exists_ownPlan_iff wf typed paths ht facts).2 h
      exact ⟨plan, hplan, decidesAll_ownPlan hplan⟩

/-- On a function that validation accepts no look-up by number misses, every iteration ends and the fallback
answers. The analysis answers just if all paths can be followed, and the other passes just if what is found
of moved values can be put into words. Values of violating types do not matter for that. -/
theorem runs_of_validate (ht : t.Built) (hv : f.validate (some (TypeModel.build t)) = .ok []) :
    f.Indexed ∧ f.Settled ∧
    (∀ settings diagnostics, ∃ plan, f.fallbackPlan (TypeModel.build t) settings diagnostics = .ok plan ∧
      f.DecidesAll plan) ∧
    (∀ mode, (∃ facts, f.lastUseFacts (TypeModel.build t) mode = .ok facts) ↔
      f.Resolves (TypeModel.build t)) ∧
    (f.Resolves (TypeModel.build t) → ∀ settings facts, f.Runs (TypeModel.build t) settings facts ↔
      ∀ ds, f.decisions (TypeModel.build t) settings facts = .ok ds → f.ReportsLegible (transferring ds)) ∧
    (f.Keyed → f.Resolves (TypeModel.build t)) ∧ (f.Legible → ∀ moves, f.ReportsLegible moves) := by
  have wf : f.WellFormed := wellFormed_of_validate hv rfl
  have typed : f.Typed (TypeModel.build t) := typed_of_validate hv rfl
  refine ⟨wf.indexed, f.settled, fun settings ds => ?_, exists_lastUseFacts_iff ht.fieldsRegistered wf typed,
    runs_iff ht.fieldsRegistered wf typed, fun hkeyed => resolves_of_validate hkeyed hv rfl, fun h => h.reports⟩
  obtain ⟨plan, hplan⟩ : ∃ plan, f.fallbackPlan (TypeModel.build t) settings ds = .ok plan :=
    (exists_fallbackPlan_iff ht.fieldsRegistered ds).2 fun s hs _ => wf.sourceFound hs
  exact ⟨plan, hplan, decidesAll_fallbackPlan hplan⟩

def movedInLoop : Function :=
  (Script.run .standard "f" .empty [
    .loop [] [
      .declare "t" (.named "Str"),
      .breakLoopIf 0,
      .moveOut (.place "t") (some (.argument "g" 0 .value false false)) false false,
      .continueLoop 0,
      .access .read "t"]]).function

theorem runs_movedInLoop : movedInLoop.Indexed ∧ movedInLoop.Settled ∧
    (∀ mode, ∃ facts, movedInLoop.lastUseFacts (TypeModel.build .standard) mode = .ok facts) ∧
    ∀ settings facts, movedInLoop.Runs (TypeModel.build .standard) settings facts := by
  obtain ⟨hindexed, hsettled, -, hanalysis, hruns, hkeyed, hlegible⟩ :=
    runs_of_validate (f := movedInLoop) TypeTable.standard_built (by decide +kernel)
  have paths : movedInLoop.Resolves (TypeModel.build .standard) := hkeyed (by decide +kernel)
  have legible : movedInLoop.Legible := by decide +kernel
  exact ⟨hindexed, hsettled, fun mode => (hanalysis mode).2 paths,
    fun settings facts => (hruns paths settings facts).2 fun _ _ => hlegible legible _⟩

def readAfterMove (id : BlockId) : Function where
  name := "f"
  entry := id
  blocks := .ofList [(id, { sites := [
    { id := 0, block := id, index := 0, kind := .decl, binding := some "t" },
    { id := 1, block := id, index := 1, kind := .moveOut, binding := some "t", explicit := true,
      target := some { kind := .callArg, callee := some "g", paramIndex := some 0 } },
    { id := 2, block := id, index := 2, kind := .read, binding := some "t" }] })]
  bindings := .ofList [("t", { name := "t", type := 2 })]

/-- Two functions that validation accepts: the analysis cannot follow a path of the first, and the plan of the
second would name a block whose number has one digit too many. -/
theorem runs_refuses :
    (keptElsewhere.validate (some (TypeModel.build .standard)) = .ok [] ∧
      keptElsewhere.violations (TypeModel.build .standard) = .ok [] ∧
      ∀ mode, ((keptElsewhere.lastUseFacts (TypeModel.build .standard) mode).map fun _ => ()) =
        .error (.noField "Str" "zzz")) ∧
    (readAfterMove (10 ^ Numeral.maxLength)).validate (some (TypeModel.build .standard)) = .ok [] ∧
      (readAfterMove (10 ^ Numeral.maxLength)).violations (TypeModel.build .standard) = .ok [] ∧
      (((readAfterMove (10 ^ Numeral.maxLength)).lastUseFacts (TypeModel.build .standard) .fixpoint).map
        fun facts => ((readAfterMove (10 ^ Numeral.maxLength)).ownPlan (TypeModel.build .standard) {} facts).map
          fun _ => ()) = .ok (.error .longNumber) := by
  refine ⟨⟨?_, ?_, fun mode => ?_⟩, ?_, ?_, ?_⟩
  case refine_3 => cases mode <;> decide +kernel
  all_goals decide +kernel

end Function
end MovePlan
