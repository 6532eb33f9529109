import MovePlan.Proofs.Analysis.Modes
import MovePlan.Proofs.Flow.Renumbered
import MovePlan.Proofs.Plan.Accepted
import MovePlan.Proofs.Plan.Destruction
import MovePlan.Proofs.Plan.Disposal

set_option autoImplicit false

namespace MovePlan

def ScopeExit.renumber (σ : BlockId → BlockId) (x : ScopeExit) : ScopeExit :=
  { block := σ x.block, next := x.next.map σ }

@[simp] theorem ScopeExit.renumber_symm {σ : Equiv.Perm BlockId} (x : ScopeExit) :
    (x.renumber σ).renumber σ.symm = x := by
  simp [ScopeExit.renumber, Function.comp_def]

namespace Function
variable {σ : Equiv.Perm BlockId} {f : Function} {m : TypeModel} {name : String} {b : Binding} {s : Site}

@[simp] theorem renumber_entry : (f.renumber σ).entry = σ f.entry := rfl

@[simp] theorem renumber_captures : (f.renumber σ).captures = f.captures := rfl

theorem mem_map_pass {events : List TraceEvent} {u : Site}
    (h : .pass u ∈ events.map (TraceEvent.renumber σ)) : ∃ w, .pass w ∈ events ∧ w.renumber σ = u := by
  obtain ⟨x, hx, heq⟩ := List.mem_map.1 h
  cases x with
  | enter id => cases heq
  | pass w => exact ⟨w, hx, TraceEvent.pass.inj heq⟩

theorem mem_map_enter {events : List TraceEvent} {id : BlockId}
    (h : .enter id ∈ events.map (TraceEvent.renumber σ)) : ∃ c, .enter c ∈ events ∧ σ c = id := by
  obtain ⟨x, hx, heq⟩ := List.mem_map.1 h
  cases x with
  | enter c => exact ⟨c, hx, TraceEvent.enter.inj heq⟩
  | pass w => cases heq

theorem trace_renumber_pass {a : BlockId} {es : List Edge} {before after : List TraceEvent}
    (h : f.trace a es = before ++ .pass s :: after) :
    (f.renumber σ).trace (σ a) (es.map (Edge.renumber σ)) =
      before.map (TraceEvent.renumber σ) ++ .pass (s.renumber σ) :: after.map (TraceEvent.renumber σ) := by
  rw [trace_renumber, h, List.map_append, List.map_cons]
  rfl

theorem usedAfter_renumber :
    (f.renumber σ).UsedAfter name (b.renumber σ) (s.renumber σ) ↔ f.UsedAfter name b s := by
  have hused : ∀ {σ : Equiv.Perm BlockId} {f : Function} {b : Binding} {s : Site}, f.UsedAfter name b s →
      (f.renumber σ).UsedAfter name (b.renumber σ) (s.renumber σ) := by
    rintro σ f b s ⟨es, c, before, mid, t, after, hw, ht, hn, ha, hdecl, hin⟩
    refine ⟨_, _, before.map (TraceEvent.renumber σ), mid.map (TraceEvent.renumber σ), t.renumber σ,
      after.map (TraceEvent.renumber σ), walk_renumber hw, ?_, hn, ha, fun u hu => ?_, fun x hx => ?_⟩
    · refine (trace_renumber_pass ht).trans ?_
      rw [List.map_append, List.map_cons]
      rfl
    · obtain ⟨w, hw', rfl⟩ := mem_map_pass hu
      exact hdecl w hw'
    · obtain ⟨c, hc, rfl⟩ := mem_map_enter hx
      rw [Binding.inRegion_renumber]
      exact hin c hc
  exact ⟨fun h => by simpa using hused (σ := σ.symm) h, hused⟩

theorem addressTakenBefore_renumber :
    (f.renumber σ).AddressTakenBefore name (s.renumber σ) ↔ f.AddressTakenBefore name s := by
  have htaken : ∀ {σ : Equiv.Perm BlockId} {f : Function} {s : Site}, f.AddressTakenBefore name s →
      (f.renumber σ).AddressTakenBefore name (s.renumber σ) := by
    rintro σ f s ⟨a, es, c, before, u, mid, after, hw, ht, hu⟩
    refine ⟨_, _, _, before.map (TraceEvent.renumber σ), u.renumber σ, mid.map (TraceEvent.renumber σ),
      after.map (TraceEvent.renumber σ), walk_renumber hw, ?_, hu⟩
    refine (trace_renumber_pass ht).trans ?_
    rw [List.map_append, List.map_cons]
    rfl
  exact ⟨fun h => by simpa using htaken (σ := σ.symm) h, htaken⟩

theorem mem_labelLoopBlocks_renumber (wf : f.WellFormed) (wf' : (f.renumber σ).WellFormed) {id : BlockId} :
    σ id ∈ (f.renumber σ).labelLoopBlocks ↔ id ∈ f.labelLoopBlocks := by
  have hloop : ∀ {σ : Equiv.Perm BlockId} {f : Function} {id : BlockId},
      (∃ es, f.Walk id es id ∧ ∃ e ∈ es, e.kind = .jump) →
        ∃ es, (f.renumber σ).Walk (σ id) es (σ id) ∧ ∃ e ∈ es, e.kind = .jump := by
    rintro σ f id ⟨es, hw, e, he, hk⟩
    exact ⟨_, walk_renumber hw, _, List.mem_map_of_mem he, hk⟩
  rw [mem_labelLoopBlocks wf, mem_labelLoopBlocks wf']
  exact ⟨fun h => by simpa using hloop (σ := σ.symm) h, hloop⟩

theorem finalAccess_renumber : (f.renumber σ).FinalAccess name (s.renumber σ) ↔ f.FinalAccess name s := by
  have hfinal : ∀ {σ : Equiv.Perm BlockId} {f : Function} {s : Site}, f.FinalAccess name s →
      (f.renumber σ).FinalAccess name (s.renumber σ) := by
    rintro σ f s ⟨halone, ⟨pre, post, hsites, hpost⟩, honce⟩
    refine ⟨fun t ht hn ha => ?_, ⟨pre.map (Site.renumber σ), post.map (Site.renumber σ), ?_, ?_⟩, ?_⟩
    · obtain ⟨u, hu, rfl⟩ := exists_of_mem_allSites_renumber ht
      exact congrArg σ (halone u hu hn ha)
    · rw [Site.renumber_block, sitesAt_renumber, hsites, List.map_append,
        List.map_cons]
    · intro t ht hn
      obtain ⟨u, hu, rfl⟩ := List.mem_map.1 ht
      exact hpost u hu hn
    · intro c hc hleads
      rw [Site.renumber_block] at hc hleads
      rw [successors, edgesAt_renumber, List.map_map] at hc
      obtain ⟨e, he, rfl⟩ := List.mem_map.1 hc
      exact honce e.dst (mem_successors.2 ⟨e, he, rfl⟩) (leads_renumber.1 hleads)
  exact ⟨fun h => by simpa using hfinal (σ := σ.symm) h, hfinal⟩

theorem lastWrite_liveTable_renumber (wf : f.WellFormed) (wf' : (f.renumber σ).WellFormed)
    (hs : s ∈ f.allSites) (hn : s.binding = some name) (ha : s.isAccess = true) (mode : LastUseMode) :
    lastWrite s.id ((f.renumber σ).liveTable mode name (b.renumber σ)) =
      lastWrite s.id (f.liveTable mode name b) := by
  have hs' : s.renumber σ ∈ (f.renumber σ).allSites := mem_allSites_renumber.2 hs
  obtain ⟨live, hlive⟩ := exists_liveTable wf mode b (mem_sitesOf.2 ⟨hs, hn⟩)
  obtain ⟨live', hlive'⟩ := exists_liveTable wf' mode (b.renumber σ) (mem_sitesOf.2 ⟨hs', hn⟩)
  rw [hlive, ← Site.renumber_id σ s, hlive']
  refine congrArg some (Bool.eq_iff_iff.2 ?_)
  cases mode with
  | fixpoint =>
    obtain ⟨x, hx, hused⟩ := liveAfter_liveness (b := b) wf hs hn
    obtain ⟨x', hx', hused'⟩ := liveAfter_liveness (b := b.renumber σ) wf' hs' hn
    obtain rfl : live = x := Option.some.inj (hlive.symm.trans hx)
    obtain rfl : live' = x' := Option.some.inj (hlive'.symm.trans hx')
    rw [hused, hused', usedAfter_renumber]
  | blockLocal =>
    have hiff := liveAfterLocally_iff wf hs hn ha
    have hiff' := liveAfterLocally_iff wf' hs' hn ha
    rw [finalAccess_renumber, ← hiff, show f.liveAfterLocally name = f.liveTable .blockLocal name b from rfl,
      hlive, show (f.renumber σ).liveAfterLocally name =
        (f.renumber σ).liveTable .blockLocal name (b.renumber σ) from rfl, hlive'] at hiff'
    cases live <;> cases live' <;> simp_all

theorem accessFact_renumber (wf : f.WellFormed) (wf' : (f.renumber σ).WellFormed) (hs : s ∈ f.allSites)
    (hn : s.binding = some name) (ha : s.isAccess = true) (mode : LastUseMode)
    (blocked : Option FieldBlock) :
    (f.renumber σ).accessFact mode name (b.renumber σ) (s.renumber σ) blocked =
      f.accessFact mode name b s blocked := by
  have hcaptured : (f.renumber σ).capturedNames = f.capturedNames := by
    simp only [capturedNames, renumber, OrderedMap.values, OrderedMap.mapEntries, List.filter_map,
      List.map_map]
    rfl
  have hsuppressed : suppression? ((f.renumber σ).capturedNames.contains name)
        ((f.renumber σ).exposedSites (f.renumber σ).graph name) (f.renumber σ).labelLoopBlocks
        (s.renumber σ) =
      suppression? (f.capturedNames.contains name) (f.exposedSites f.graph name) f.labelLoopBlocks s := by
    have hexposed : (s.renumber σ).id ∈ (f.renumber σ).exposedSites (f.renumber σ).graph name ↔
        s.id ∈ f.exposedSites f.graph name := by
      rw [mem_exposedSites wf' (mem_allSites_renumber.2 hs) hn ha, mem_exposedSites wf hs hn ha,
        addressTakenBefore_renumber]
      rfl
    have hloop : (s.renumber σ).block ∈ (f.renumber σ).labelLoopBlocks ↔ s.block ∈ f.labelLoopBlocks :=
      mem_labelLoopBlocks_renumber wf wf'
    simp only [suppression?, hcaptured, List.contains_eq_mem, hexposed, hloop]
  have hlive := lastWrite_liveTable_renumber (b := b) wf wf' hs hn ha mode
  simp only [accessFact, hsuppressed, Site.renumber_id, hlive]

structure SameFacts (f : Function) (facts facts' : LastUseFacts) : Prop where
  lastUse : ∀ s ∈ f.allSites, s.isAccess = true → ∀ name, s.binding = some name →
    facts'.isLastUse s.id = facts.isLastUse s.id
  candidate : ∀ s ∈ f.allSites, s.isAccess = true → ∀ name, s.binding = some name →
    facts'.isMoveCandidate s.id = facts.isMoveCandidate s.id
  suppressed : ∀ s ∈ f.allSites, s.isAccess = true → ∀ name, s.binding = some name →
    facts'.suppressed? s.id = facts.suppressed? s.id
  fieldBlocked : ∀ s ∈ f.allSites, s.isAccess = true → ∀ name, s.binding = some name →
    facts'.fieldBlocked? s.id = facts.fieldBlocked? s.id

theorem sameFacts_renumber (wf : f.WellFormed) (wf' : (f.renumber σ).WellFormed) {mode : LastUseMode}
    {facts facts' : LastUseFacts} (h : f.lastUseFacts m mode = .ok facts)
    (h' : (f.renumber σ).lastUseFacts m mode = .ok facts') : SameFacts f facts facts' := by
  have hfact : ∀ s ∈ f.allSites, s.isAccess = true → ∀ name, s.binding = some name →
      facts'.fact? s.id = facts.fact? s.id ∧
        ∀ {γ : Type} (g : AccessFact → Option γ),
          lastWrite s.id (facts'.accesses.filterMap fun a => (g a).map fun x => (a.site, x)) =
            lastWrite s.id (facts.accesses.filterMap fun a => (g a).map fun x => (a.site, x)) := by
    intro s hs ha name hn
    obtain ⟨b, hb⟩ := wf.binding hs hn
    have hs' : s.renumber σ ∈ (f.renumber σ).allSites := mem_allSites_renumber.2 hs
    have hsame := fun blocked => accessFact_renumber (b := b) wf wf' hs hn ha mode blocked
    constructor
    · obtain ⟨blocked, hblocked, hfact⟩ := fact?_eq wf h hs hn hb ha
      obtain ⟨blocked', hblocked', hfact'⟩ := fact?_eq wf' h' hs' hn (binding?_renumber_of hb) ha
      obtain rfl : blocked = blocked' := Except.ok.inj (hblocked.symm.trans hblocked')
      exact hfact'.trans ((congrArg some (hsame blocked)).trans hfact.symm)
    · intro γ g
      obtain ⟨blocked, hblocked, hwrite⟩ := lastWrite_facts wf h hs hn hb ha g
      obtain ⟨blocked', hblocked', hwrite'⟩ := lastWrite_facts wf' h' hs' hn (binding?_renumber_of hb) ha g
      obtain rfl : blocked = blocked' := Except.ok.inj (hblocked.symm.trans hblocked')
      exact hwrite'.trans ((congrArg g (hsame blocked)).trans hwrite.symm)
  exact
    { lastUse := fun s hs ha name hn => by
        rw [LastUseFacts.isLastUse, LastUseFacts.isLastUse, (hfact s hs ha name hn).1]
      candidate := fun s hs ha name hn => by
        rw [LastUseFacts.isMoveCandidate, LastUseFacts.isMoveCandidate, (hfact s hs ha name hn).1]
      suppressed := fun s hs ha name hn => (hfact s hs ha name hn).2 AccessFact.suppressed
      fieldBlocked := fun s hs ha name hn => (hfact s hs ha name hn).2 AccessFact.fieldBlocked }

variable {moves moves' : List SiteId} {place : Place}

theorem conditionAfter_congr (hmoves : ∀ id, id ∈ moves' ↔ id ∈ moves) (s : Site) (c : Condition) :
    conditionAfter moves' place s c = conditionAfter moves place s c := by
  simp only [conditionAfter, List.contains_eq_mem, hmoves]

theorem conditionOn_renumber (hmoves : ∀ id, id ∈ moves' ↔ id ∈ moves) (events : List TraceEvent) :
    (f.renumber σ).conditionOn moves' place (b.renumber σ) (events.map (TraceEvent.renumber σ)) =
      f.conditionOn moves place b events := by
  rw [conditionOn, conditionOn, List.foldl_map]
  refine congrArg (fun step => List.foldl step (f.startCondition place b) events) ?_
  funext c x
  cases x with
  | enter id => simp only [TraceEvent.renumber, conditionStep, Binding.inRegion_renumber]
  | pass s =>
    simp only [TraceEvent.renumber, conditionStep, Site.renumber_block,
      Binding.inRegion_renumber]
    rw [conditionAfter_congr hmoves]
    rfl

theorem leaves_renumber (hmoves : ∀ id, id ∈ moves' ↔ id ∈ moves) {id : BlockId} {c : Condition} :
    (f.renumber σ).Leaves moves' place (b.renumber σ) (σ id) c ↔ f.Leaves moves place b id c := by
  have hleaves : ∀ {σ : Equiv.Perm BlockId} {f : Function} {b : Binding} {id : BlockId}
      {moves moves' : List SiteId}, (∀ id, id ∈ moves' ↔ id ∈ moves) → f.Leaves moves place b id c →
        (f.renumber σ).Leaves moves' place (b.renumber σ) (σ id) c := by
    rintro σ f b id moves moves' hmoves ⟨es, hw, hc⟩
    refine ⟨_, walk_renumber hw, ?_⟩
    rw [renumber_entry, trace_renumber, conditionOn_renumber hmoves, hc]
  exact ⟨fun h => by simpa using hleaves (σ := σ.symm) (fun id => (hmoves id).symm) h, hleaves hmoves⟩

/-- Some run comes to the site with the place in the condition. -/
def ComesTo (f : Function) (moves : List SiteId) (place : Place) (b : Binding) (s : Site)
    (c : Condition) : Prop :=
  ∃ es d before after, f.Walk f.entry es d ∧ f.trace f.entry es = before ++ .pass s :: after ∧
    f.conditionOn moves place b before = c

theorem comesTo_renumber (hmoves : ∀ id, id ∈ moves' ↔ id ∈ moves) {c : Condition} :
    (f.renumber σ).ComesTo moves' place (b.renumber σ) (s.renumber σ) c ↔ f.ComesTo moves place b s c := by
  have hcomes : ∀ {σ : Equiv.Perm BlockId} {f : Function} {b : Binding} {s : Site}
      {moves moves' : List SiteId}, (∀ id, id ∈ moves' ↔ id ∈ moves) → f.ComesTo moves place b s c →
        (f.renumber σ).ComesTo moves' place (b.renumber σ) (s.renumber σ) c := by
    rintro σ f b s moves moves' hmoves ⟨es, d, before, after, hw, ht, hc⟩
    exact ⟨_, _, _, _, walk_renumber hw, trace_renumber_pass ht,
      (conditionOn_renumber hmoves before).trans hc⟩
  exact ⟨fun h => by simpa using hcomes (σ := σ.symm) (fun id => (hmoves id).symm) h, hcomes hmoves⟩

theorem stateSet_ext {x y : StateSet} (h : ∀ c, x.has c = true ↔ y.has c = true) : x = y :=
  le_antisymm (StateSet.le_iff.2 fun c => (h c).1) (StateSet.le_iff.2 fun c => (h c).2)

/-- The conditions before a site are the same. -/
theorem setBefore_renumber (wf : f.WellFormed) (wf' : (f.renumber σ).WellFormed)
    (hmoves : ∀ id, id ∈ moves' ↔ id ∈ moves) {r r' : PlaceStates} (hb : f.binding? place.binding = some b)
    (h : f.placeStatesIn f.graph moves place = .ok r)
    (h' : (f.renumber σ).placeStatesIn (f.renumber σ).graph moves' place = .ok r') (hs : s ∈ f.allSites)
    (hn : s.binding = some place.binding) : r'.setBefore s.id = r.setBefore s.id := by
  refine stateSet_ext fun c => ?_
  rw [has_setBefore_iff wf hb h hs hn, ← Site.renumber_id σ s,
    has_setBefore_iff wf' (binding?_renumber_of hb) h' (mem_allSites_renumber.2 hs) hn]
  exact and_congr (by rw [Site.renumber_block, Binding.inRegion_renumber]) (comesTo_renumber hmoves)

theorem mem_scopeExits_renumber {x : ScopeExit} :
    x.renumber σ ∈ (f.renumber σ).scopeExits (f.renumber σ).graph (b.renumber σ) ↔
      x ∈ f.scopeExits f.graph b := by
  have hexits : ∀ {σ : Equiv.Perm BlockId} {f : Function} {b : Binding} {x : ScopeExit},
      x ∈ f.scopeExits f.graph b →
        x.renumber σ ∈ (f.renumber σ).scopeExits (f.renumber σ).graph (b.renumber σ) := by
    intro σ f b x hx
    obtain ⟨⟨hr, hin⟩, hx⟩ := mem_scopeExits.1 hx
    refine mem_scopeExits.2 ⟨⟨reached_renumber.2 hr, (Binding.inRegion_renumber _ _).trans hin⟩, ?_⟩
    rcases hx with ⟨hnone, hnext⟩ | ⟨e, he, hout, hnext⟩
    · refine .inl ⟨?_, by rw [ScopeExit.renumber, hnext]; rfl⟩
      rw [ScopeExit.renumber, edgesAt_renumber, hnone]
      rfl
    · exact .inr ⟨e.renumber σ, mem_edgesAt_renumber he, (Binding.inRegion_renumber _ _).trans hout,
        by rw [ScopeExit.renumber, hnext]; rfl⟩
  refine ⟨fun h => ?_, hexits⟩
  have hback := hexits (σ := σ.symm) h
  simpa [ScopeExit.renumber, Function.comp_def] using hback

theorem statesAtEnd_renumber (wf : f.WellFormed) (wf' : (f.renumber σ).WellFormed)
    (hmoves : ∀ id, id ∈ moves' ↔ id ∈ moves) {id : BlockId} (hr : f.Reached id) :
    ((f.renumber σ).statesAtEnd (f.renumber σ).graph moves' place (b.renumber σ)).at? .empty (σ id) =
      (f.statesAtEnd f.graph moves place b).at? .empty id := by
  refine stateSet_ext fun c => ?_
  rw [has_statesAtEnd wf hr, has_statesAtEnd wf' (reached_renumber.2 hr), leaves_renumber hmoves]

theorem mem_exitStates_renumber (wf : f.WellFormed) (wf' : (f.renumber σ).WellFormed)
    (hmoves : ∀ id, id ∈ moves' ↔ id ∈ moves) {r r' : PlaceStates} (hb : f.binding? place.binding = some b)
    (h : f.placeStatesIn f.graph moves place = .ok r)
    (h' : (f.renumber σ).placeStatesIn (f.renumber σ).graph moves' place = .ok r') {x : ScopeExit}
    {st : MoveState} : (x.renumber σ, st) ∈ r'.exitStates ↔ (x, st) ∈ r.exitStates := by
  rw [mem_exitStates hb h, mem_exitStates (binding?_renumber_of hb) h', mem_scopeExits_renumber]
  refine and_congr_right fun hx => ?_
  rw [show (x.renumber σ).block = σ x.block from rfl,
    statesAtEnd_renumber wf wf' hmoves (mem_scopeExits.1 hx).1.1]

end Function
end MovePlan
