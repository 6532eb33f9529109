import MovePlan.Flow.Script
import MovePlan.Proofs.Analysis.LastUse
import MovePlan.Proofs.Plan.Planned
import MovePlan.Types.Standard

set_option autoImplicit false

namespace MovePlan

theorem LastUseFacts.isLastUse_of_isMoveCandidate (facts : LastUseFacts) {id : SiteId}
    (h : facts.isMoveCandidate id = true) : facts.isLastUse id = true := by
  rw [isMoveCandidate] at h
  rw [isLastUse]
  cases hf : facts.fact? id with
  | none => simp [hf] at h
  | some a =>
    rw [hf, Option.map_some, Option.getD_some, AccessFact.moveCandidate, Bool.and_eq_true] at h
    exact h.1

namespace Function
variable {f : Function} {m : TypeModel} {settings : Settings} {plan : FunctionPlan}

theorem usedAfter_of_trace (wf : f.WellFormed) {name : String} {b : Binding} {a c : BlockId}
    {es : List Edge} {u s : Site} {before mid after : List TraceEvent} (hw : f.Walk a es c)
    (ht : f.trace a es = before ++ .pass u :: (mid ++ .pass s :: after))
    (hs : s.binding = some name) (ha : s.isAccess = true)
    (hdecl : ∀ w, .pass w ∈ mid → declares name w = false)
    (hin : ∀ x, .enter x ∈ mid → b.inRegion x = true) : f.UsedAfter name b u := by
  obtain ⟨es₁, es₂, d, pre, post, rfl, _, h₂, hsites, _, hafter⟩ := trace_split_pass hw ht
  obtain rfl : u.block = d := wf.block (by simp [hsites])
  refine ⟨es₂, c, .enter u.block :: pre.map .pass, mid, s, after, h₂, ?_, hs, ha, hdecl, hin⟩
  have htrace := trace_of_site es₂ (walk_nil.2 rfl : f.Walk u.block [] u.block) hsites
  rw [← hafter] at htrace
  exact htrace

/-- No access that overlaps what was moved explicitly finds it moved, unless it writes over the whole. -/
theorem Planned.not_moved_before (hp : f.Planned m settings plan) {u s : Site} {name : String}
    {b : Binding} (hu : u ∈ f.allSites) (hun : u.binding = some name) (hb : f.binding? name = some b)
    (hmem : u.id ∈ plan.moves) (hexplicit : u.explicit = true) (hs : s ∈ f.allSites)
    (hsn : s.binding = some name) (hsin : b.inRegion s.block = true) (ha : s.isAccess = true)
    (hoverlap : u.path <+: s.path ∨ s.path <+: u.path)
    (hcover : ¬ (s.kind = .write ∧ s.path <+: u.path)) {es : List Edge} {c : BlockId}
    {events after : List TraceEvent} (hw : f.Walk f.entry es c)
    (ht : f.trace f.entry es = events ++ .pass s :: after) :
    f.conditionOn plan.moves { binding := name, path := u.path } b events ≠ .moved := by
  intro hmoved
  obtain ⟨ds, huses, hnone⟩ := hp.uses
  obtain ⟨r, hr, huse⟩ := isUseOfMoved_of_check hp.wf huses hnone hu hmem hexplicit hun
    (mem_sitesOf.2 ⟨hs, hsn⟩)
  have hset : (r.setBefore s.id).has .moved = true :=
    (has_setBefore hp.wf hb hr hs hsn hsin).2 ⟨es, c, events, after, hw, ht, hmoved⟩
  have hoverlaps : r.place.overlaps s.path = true := by
    rw [placeStates_place hr, Place.overlaps, Place.coveredBy, Bool.or_eq_true,
      List.isPrefixOf_iff_prefix, List.isPrefixOf_iff_prefix]
    exact hoverlap.symm
  have hnotWrite : (decide (s.kind = .write) && r.place.coveredBy s.path) = false := by
    rw [placeStates_place hr, ← Bool.not_eq_true, Bool.and_eq_true, decide_eq_true_eq,
      Place.coveredBy, List.isPrefixOf_iff_prefix]
    exact hcover
  rw [isUseOfMoved, ha, hnotWrite, hoverlaps] at huse
  exact absurd hset (by simpa [PlaceStates.mayBeMovedBefore, StateSet.has] using huse)

/-- After a site has transferred the ownership of a place, no run accesses an overlapping place before
it declares the binding again, leaves its region, or writes over the whole of what was moved. -/
theorem no_access_after_transfer (hplan : planFunction m settings f = .ok plan)
    (hx : plan.excluded = false) {es : List Edge} {c : BlockId} {u s : Site}
    {before mid after : List TraceEvent} (hw : f.Walk f.entry es c)
    (ht : f.trace f.entry es = before ++ .pass u :: (mid ++ .pass s :: after))
    {name : String} {b : Binding} (hu : u.binding = some name) (hb : f.binding? name = some b)
    (huin : b.inRegion u.block = true)
    (hmove : ∃ d, plan.decisions.get? u.id = some d ∧ d.transfers = true)
    (hs : s.binding = some name) (ha : s.isAccess = true)
    (hoverlap : u.path <+: s.path ∨ s.path <+: u.path)
    (hdecl : ∀ w, .pass w ∈ mid → ¬ (w.binding = some name ∧ w.kind = .decl))
    (hin : ∀ x, .enter x ∈ mid → b.inRegion x = true) :
    (s.kind = .write ∧ s.path <+: u.path) ∨
      ∃ w, .pass w ∈ mid ∧ w.binding = some name ∧ w.kind = .write ∧ w.path <+: u.path := by
  have hp := planned_of_planFunction hplan hx
  have huall : u ∈ f.allSites := mem_allSites_of_pass (by rw [ht]; simp)
  have hsall : s ∈ f.allSites := mem_allSites_of_pass (by rw [ht]; simp)
  have hmem : u.id ∈ plan.moves := mem_moves.2 hmove
  obtain ⟨hk, _, hreason⟩ := hp.of_mem_moves huall hu hb hmem
  rcases hreason with ⟨facts, hfacts, hcandidate⟩ | hexplicit
  · -- the move is a last use, and the access would be a later one
    have hdecl' : ∀ w, .pass w ∈ mid → declares name w = false := by
      intro w hw'
      simpa [declares] using hdecl w hw'
    have hua : u.isAccess = true := by rw [Site.isAccess, hk]; rfl
    exact absurd (usedAfter_of_trace hp.wf hw ht hs ha hdecl' hin)
      (not_usedAfter_of_lastUse hp.wf hfacts huall hu hb hua (facts.isLastUse_of_isMoveCandidate hcandidate))
  · -- the move is explicit, and the access would have been reported
    by_contra hnot
    rw [not_or, not_and] at hnot
    obtain ⟨hcover, hwrites⟩ := hnot
    have hcovered : ∀ path : Path,
        ({ binding := name, path := u.path } : Place).coveredBy path = true ↔ path <+: u.path := by
      intro path
      rw [Place.coveredBy, List.isPrefixOf_iff_prefix]
    have htakes : Takes plan.moves { binding := name, path := u.path } u :=
      ⟨hmem, hk, hu, (hcovered u.path).2 List.prefix_rfl⟩
    have hrenew : ∀ w, .pass w ∈ mid → ¬ Renews { binding := name, path := u.path } w := by
      rintro w hw' ⟨hwn, hwk | ⟨hwk, hcov⟩⟩
      · exact hdecl w hw' ⟨hwn, hwk⟩
      · exact hwrites ⟨w, hw', hwn, hwk, (hcovered w.path).1 hcov⟩
    have hsin : b.inRegion s.block = true := by
      rcases hp.wf.block_of_between hw ht with h | h
      · rw [h]
        exact huin
      · exact hin _ h
    have hat : f.trace f.entry es = (before ++ .pass u :: mid) ++ .pass s :: after := by simp [ht]
    exact hp.not_moved_before huall hu hb hmem hexplicit hsall hs hsin ha hoverlap (not_and.2 hcover) hw hat
      (conditionOn_of_takes htakes huin hin hrenew)

def writtenAgain : Function :=
  (Script.run .standard "f" .empty [
    .declare "t" (.named "Str"),
    .moveOut (.place "t") (some (.argument "g" 0 .value false false)) true false,
    .access .write "t"]).function

def writtenAgainPlan : FunctionPlan :=
  (planFunction (TypeModel.build .standard) {} writtenAgain).toOption.getD default

theorem planFunction_writtenAgain :
    planFunction (TypeModel.build .standard) {} writtenAgain = .ok writtenAgainPlan :=
  eq_ok_of_isOk (by decide +kernel)

def moveOfT : Site := { Build.unplaced .moveOut (some "t") with
  id := 1, index := 1, target := some (.argument "g" 0 .value false false), explicit := true }
def writeOfT : Site := { Build.unplaced .write (some "t") with id := 2, index := 2 }

theorem no_access_writtenAgain :
    (writeOfT.kind = .write ∧ writeOfT.path <+: moveOfT.path) ∨
      ∃ w, .pass w ∈ ([] : List TraceEvent) ∧ w.binding = some "t" ∧ w.kind = .write ∧
        w.path <+: moveOfT.path := by
  have ht : writtenAgain.trace writtenAgain.entry [] =
      [.enter 0, .pass (Build.unplaced .decl (some "t"))] ++
        .pass moveOfT :: ([] ++ .pass writeOfT :: []) := by
    decide +kernel
  have hb : writtenAgain.binding? "t" = some { name := "t", type := 2 } := by decide +kernel
  have hmove : ∃ d, writtenAgainPlan.decisions.get? moveOfT.id = some d ∧ d.transfers = true :=
    ⟨{ kind := .constructByMove, transfers := true, reason := .explicit }, by decide +kernel, rfl⟩
  exact no_access_after_transfer planFunction_writtenAgain (by decide +kernel) (walk_nil.2 rfl) ht rfl hb
    rfl hmove rfl rfl (.inl List.prefix_rfl) (by simp) (by simp)

end Function
end MovePlan
