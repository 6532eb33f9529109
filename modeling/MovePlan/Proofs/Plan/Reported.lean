import MovePlan.Proofs.Plan.UseAfterMove

set_option autoImplicit false

namespace MovePlan
namespace Function
variable {f : Function} {m : TypeModel} {settings : Settings} {facts : LastUseFacts} {plan : FunctionPlan}
  {moves : List SiteId} {place : Place} {b : Binding} {s : Site}

def RunsTo (f : Function) (events : List TraceEvent) (s : Site) : Prop :=
  ∃ es c after, f.Walk f.entry es c ∧ f.trace f.entry es = events ++ .pass s :: after

def MayHold (f : Function) (moves : List SiteId) (place : Place) (b : Binding) (s : Site) : Prop :=
  ∃ events, f.RunsTo events s ∧ f.Holds moves place b events

/-- Some run passes the move and then the access. In between it stays in the region, and nothing declares
the binding or writes over the place. -/
def TakenBefore (f : Function) (place : Place) (b : Binding) (u s : Site) : Prop :=
  ∃ before mid, f.RunsTo (before ++ .pass u :: mid) s ∧ b.inRegion u.block = true ∧
    (∀ x, .enter x ∈ mid → b.inRegion x = true) ∧
    ∀ w, .pass w ∈ mid → w.binding = some place.binding →
      w.kind ≠ .decl ∧ ¬ (w.kind = .write ∧ w.path <+: place.path)

/-- What a report on the use of a place at a site stands for, where `movers` are the moves in its notes. -/
structure Alarm (f : Function) (moves : List SiteId) (d : Diagnostic) (place : Place) (b : Binding) (s : Site)
    (movers : List Site) : Prop where
  code : d.code = some "E_USE_AFTER_MOVE"
  notes : List.Forall₂ (fun u note => ∃ span site, u.span.render? = some span ∧ u.describe? = some site ∧
    note = s!"'{place.render}' moved at {span} ({site})") movers d.notes
  /-- The moves in the notes are the explicit ones that take the place. -/
  listed : ∀ u, u ∈ movers ↔ u ∈ f.allSites ∧ u.id ∈ moves ∧ u.explicit = true ∧
    u.binding = some place.binding ∧ u.path <+: place.path
  binding : f.binding? place.binding = some b
  access : s ∈ f.allSites ∧ s.binding = some place.binding ∧ s.isAccess = true
  taken : ∃ u ∈ movers, u.kind = .moveOut ∧ f.TakenBefore place b u s
  certain : ¬ f.MayHold moves place b s → ∃ site, s.describe? = some site ∧
    d.message = s!"use of moved value '{place.render}' in '{f.name}' ({site})"
  uncertain : f.MayHold moves place b s → ∃ site, s.describe? = some site ∧
    d.message = s!"use of possibly moved value '{place.render}' in '{f.name}' ({site})"

theorem mem_reaching_movers (wf : f.WellFormed) {movers : List Site} (h : f.explicitMoves moves = .ok movers)
    (u : Site) : u ∈ movers.filter (·.reaches place) ↔ u ∈ f.allSites ∧ u.id ∈ moves ∧ u.explicit = true ∧
      u.binding = some place.binding ∧ u.path <+: place.path := by
  rw [List.mem_filter, mem_explicitMoves wf h]
  simp [Site.reaches, Place.coveredBy, and_assoc]

theorem mayHold_iff (wf : f.WellFormed) {r : PlaceStates}
    (hb : f.binding? place.binding = some b) (h : f.placeStatesIn f.graph moves place = .ok r)
    (hs : s ∈ f.allSites) (hn : s.binding = some place.binding) (hin : b.inRegion s.block = true) :
    f.MayHold moves place b s ↔ (r.setBefore s.id).valid = true := by
  rw [show (r.setBefore s.id).valid = (r.setBefore s.id).has .valid from rfl, has_setBefore wf hb h hs hn hin]
  constructor
  · rintro ⟨before, ⟨es, c, after, hw, ht⟩, hholds⟩
    exact ⟨es, c, before, after, hw, ht, (tracks_before wf hw ht).valid_iff.2 hholds⟩
  · rintro ⟨es, c, before, after, hw, ht, hvalid⟩
    exact ⟨before, ⟨es, c, after, hw, ht⟩, (tracks_before wf hw ht).valid_iff.1 hvalid⟩

/-- A place that may have been moved is said to be moved if no run leaves it a value. -/
theorem stateBefore_eq_moved_iff {r : PlaceStates} {id : SiteId} (h : r.mayBeMovedBefore id = true) :
    r.stateBefore id = .moved ↔ ¬ (r.setBefore id).valid = true := by
  rw [StateSet.valid_iff_summary, PlaceStates.stateBefore]
  rcases StateSet.summary_of_moved h with hm | hm <;> simp [hm]

/-- The transferring move that takes the place last before an access is explicit, so the notes list it. -/
theorem takenBefore_of_use (wf : f.WellFormed) {mode : LastUseMode} (hfacts : f.lastUseFacts m mode = .ok facts)
    {ds : OrderedMap SiteId UseDecision} (hds : f.decisions m settings facts = .ok ds)
    (hb : f.binding? place.binding = some b) (hn : s.binding = some place.binding) (ha : s.isAccess = true)
    {events : List TraceEvent} (hruns : f.RunsTo events s)
    (hmoved : f.conditionOn (transferring ds) place b events = .moved) :
    ∃ u ∈ f.allSites, Takes (transferring ds) place u ∧ u.explicit = true ∧ f.TakenBefore place b u s := by
  obtain ⟨es, c, after, hw, ht⟩ := hruns
  obtain ⟨before, u, mid, rfl, hu, htakes, huin, hinside, hmid⟩ := lastTaker_of_moved wf hw ht hmoved
  have ht' : f.trace f.entry es = before ++ .pass u :: (mid ++ .pass s :: after) := by simp [ht]
  obtain ⟨_, _, hexplicit, _⟩ := explicit_of_lastTaker wf hfacts hds hb hw ht' hn ha htakes hinside hmid
  refine ⟨u, hu, htakes, hexplicit, before, mid, ⟨es, c, after, hw, ht⟩, huin, hinside, fun w hw' hwn => ?_⟩
  have hrenews := hmid w hw'
  simpa [Renews, hwn, not_or, Place.coveredBy] using hrenews

theorem alarm_of_mem (wf : f.WellFormed) {mode : LastUseMode} (hfacts : f.lastUseFacts m mode = .ok facts)
    {decisions : OrderedMap SiteId UseDecision} (hdecisions : f.decisions m settings facts = .ok decisions)
    {ds : List Diagnostic} (h : f.checkUseAfterMove (transferring decisions) = .ok ds) {d : Diagnostic}
    (hd : d ∈ ds) : ∃ place b s movers, f.Alarm (transferring decisions) d place b s movers := by
  obtain ⟨explicit, place, _, r, s, hexplicit, -, hr, huse, hreport⟩ := of_mem_checkUseAfterMove wf h hd
  obtain ⟨site, notes, hsite, hnotes, rfl⟩ := useAfterMove?_eq_some.1 hreport
  obtain ⟨hs, hn, ha, -, -, b, hb, hin, es, c, before, after, hw, ht, hmoved⟩ := id huse
  have hmaybe : r.mayBeMovedBefore s.id = true := by
    have hreported := (isUseOfMoved_iff wf hb hr hs hn).2 huse
    rw [isUseOfMoved, Bool.and_eq_true] at hreported
    exact hreported.2
  obtain ⟨u, hu, ⟨humem, huk, hun, hucov⟩, huexplicit, htaken⟩ :=
    takenBefore_of_use wf hfacts hdecisions hb hn ha ⟨es, c, after, hw, ht⟩ hmoved
  have hholds := mayHold_iff wf hb hr hs hn hin
  rw [placeStates_place hr] at hnotes ⊢
  refine ⟨place, b, s, explicit.filter (·.reaches place), ?_⟩
  constructor
  case code => rfl
  case notes =>
    refine (mapM_eq_some.1 hnotes).imp fun v note hnote => ?_
    obtain ⟨span, text, hspan, htext, heq⟩ := moveNote?_eq_some.1 hnote
    exact ⟨span, text, hspan, htext, heq.symm⟩
  case listed => exact mem_reaching_movers wf hexplicit
  case binding => exact hb
  case access => exact ⟨hs, hn, ha⟩
  case taken =>
    have hpath : u.path <+: place.path := by simpa [Place.coveredBy] using hucov
    exact ⟨u, (mem_reaching_movers wf hexplicit u).2 ⟨hu, humem, huexplicit, hun, hpath⟩, huk, htaken⟩
  case certain =>
    intro hno
    rw [goneWord, if_pos ((stateBefore_eq_moved_iff hmaybe).2 (hno ∘ hholds.2))]
    exact ⟨site, hsite, rfl⟩
  case uncertain =>
    intro hyes
    have hne : r.stateBefore s.id ≠ .moved := fun heq =>
      (stateBefore_eq_moved_iff hmaybe).1 heq (hholds.1 hyes)
    rw [goneWord, if_neg hne]
    exact ⟨site, hsite, rfl⟩

/-- What a function that validation accepts is reported for are uses after moves, if its types are sound. -/
theorem diagnostics_of_planFunction (hv : f.validate (some m) = .ok []) (hsound : f.violations m = .ok [])
    (h : planFunction m settings f = .ok plan) :
    ∃ facts decisions, f.lastUseFacts m settings.lastUseMode = .ok facts ∧
      f.decisions m settings facts = .ok decisions ∧
      f.checkUseAfterMove (transferring decisions) = .ok plan.diagnostics := by
  rw [planFunction_eq] at h
  obtain ⟨body, hbody, h⟩ := bind_eq_ok.1 h
  obtain ⟨inner, _, h⟩ := bind_eq_ok.1 h
  rw [pure_eq_ok] at h
  subst h
  obtain ⟨defects, hdefects, hbody⟩ := bind_eq_ok.1 hbody
  obtain rfl : [] = defects := Except.ok.inj (hv.symm.trans hdefects)
  rw [if_neg (by simp [hasErrors])] at hbody
  obtain ⟨warnings, hwarnings, hbody⟩ := bind_eq_ok.1 hbody
  obtain rfl : [] = warnings := Except.ok.inj (hsound.symm.trans hwarnings)
  rw [if_neg (by simp)] at hbody
  obtain ⟨facts, hfacts, hbody⟩ := bind_eq_ok.1 hbody
  obtain ⟨own, hown, hbody⟩ := bind_eq_ok.1 hbody
  rw [pure_eq_ok] at hbody
  subst hbody
  obtain ⟨decisions, hdecisions, hown⟩ := bind_eq_ok.1 hown
  obtain ⟨ds, hds, hown⟩ := bind_eq_ok.1 hown
  refine ⟨facts, decisions, liftType_eq_ok.1 hfacts, hdecisions, ?_⟩
  change f.checkUseAfterMove (transferring decisions) = .ok ([] ++ own.diagnostics)
  split at hown
  · rw [List.nil_append, (inert_fallbackPlan hown).diagnostics]
    exact hds
  · obtain ⟨_, _, hown⟩ := bind_eq_ok.1 hown
    obtain ⟨_, _, hown⟩ := bind_eq_ok.1 hown
    rw [pure_eq_ok] at hown
    rw [← hown]
    exact hds

/-- Every report of a use after a move is right: a move that it lists takes the place on a run to the access,
and the report is certain exactly if no run comes to the access with a value in the place. -/
theorem reports_are_alarms (hv : f.validate (some m) = .ok []) (hsound : f.violations m = .ok [])
    (h : planFunction m settings f = .ok plan) :
    ∃ facts decisions, f.lastUseFacts m settings.lastUseMode = .ok facts ∧
      f.decisions m settings facts = .ok decisions ∧
      ∀ d ∈ plan.diagnostics, ∃ place b s movers, f.Alarm (transferring decisions) d place b s movers := by
  obtain ⟨facts, decisions, hfacts, hdecisions, hcheck⟩ := diagnostics_of_planFunction hv hsound h
  exact ⟨facts, decisions, hfacts, hdecisions, fun d hd =>
    alarm_of_mem (wellFormed_of_validate hv rfl) hfacts hdecisions hcheck hd⟩

def readAfterBranch : Function :=
  (Script.run .standard "f" .empty [
    .declare "t" (.named "Str"),
    .branchThen [.moveOut (.place "t") (some (.argument "g" 0 .value false false)) true false],
    .access .read "t",
    .ret .value []]).function

def readAfterBranchPlan : FunctionPlan :=
  (planFunction (TypeModel.build .standard) {} readAfterBranch).toOption.getD default

theorem reports_readAfterBranch : readAfterBranchPlan.diagnostics.map Diagnostic.message =
    ["use of possibly moved value 't' in 'f' (read t @bb3[0])"] ∧
      ∃ facts decisions,
        readAfterBranch.lastUseFacts (TypeModel.build .standard) ({} : Settings).lastUseMode = .ok facts ∧
        readAfterBranch.decisions (TypeModel.build .standard) {} facts = .ok decisions ∧
        ∀ d ∈ readAfterBranchPlan.diagnostics, ∃ place b s movers,
          readAfterBranch.Alarm (transferring decisions) d place b s movers :=
  ⟨by decide +kernel, reports_are_alarms (by decide +kernel) (by decide +kernel)
    (eq_ok_of_isOk (by decide +kernel))⟩

end Function
end MovePlan
