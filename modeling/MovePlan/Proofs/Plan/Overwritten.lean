import MovePlan.Proofs.Plan.GuardedWrite
import MovePlan.Proofs.Plan.Total

set_option autoImplicit false

namespace MovePlan
open TraceEvent (At)

namespace Function
variable {f : Function} {m : TypeModel} {settings : Settings} {plan : FunctionPlan}
  {moves : List SiteId} {place part : Place} {b : Binding} {s : Site}

theorem contains_iff_path : Contains place part ↔ place.binding = part.binding ∧ place.path <+: part.path := by
  rw [Contains, Place.coveredBy, List.isPrefixOf_iff_prefix]

theorem renews_of_contains (h : Contains place part) (hs : Renews place s) : Renews part s := by
  obtain ⟨hbinding, hpath⟩ := contains_iff_path.1 h
  refine ⟨hbinding ▸ hs.1, hs.2.imp_right fun hwrite => ⟨hwrite.1, ?_⟩⟩
  rw [Place.coveredBy, List.isPrefixOf_iff_prefix] at hwrite ⊢
  exact hwrite.2.trans hpath

theorem supplies_of_contains (h : Contains place part) (hs : Supplies place b s) : Supplies part b s :=
  ⟨renews_of_contains h hs.1, hs.2⟩

theorem supplied_of_contains (h : Contains place part) {events : List TraceEvent}
    (hs : f.Supplied place b events) : f.Supplied part b events := by
  rcases hs with ⟨hgiven, hinside⟩ | ⟨before, x, after, rfl, hx, hafter⟩
  · exact .inl ⟨hgiven.imp_right fun hcaptured => h.1 ▸ hcaptured, hinside⟩
  · refine .inr ⟨before, x, after, rfl, ?_, hafter⟩
    cases x with
    | enter id => exact hx
    | pass s => exact supplies_of_contains h hx

theorem supplied_of_append {events later : List TraceEvent}
    (hnone : ∀ x ∈ later, ¬ At (Supplies place b) x) (h : f.Supplied place b (events ++ later)) :
    f.Supplied place b events ∧ ∀ x ∈ later, ¬ Outside b x := by
  induction later using List.reverseRecOn with
  | nil =>
    rw [List.append_nil] at h
    exact ⟨h, fun x hx => absurd hx List.not_mem_nil⟩
  | append_singleton later x ih =>
    rw [List.forall_mem_append, List.forall_mem_singleton] at hnone ⊢
    rw [← List.append_assoc, supplied_snoc] at h
    obtain ⟨hold, hx⟩ := h.resolve_left hnone.2
    obtain ⟨hbefore, hlater⟩ := ih hnone.1 hold
    exact ⟨hbefore, hlater, hx⟩

/-- A part is gone from a place that is not only if the move was of a field path below the place. -/
theorem below_of_takes (hc : Contains place part) {u : Site} {mid : List TraceEvent}
    {before : List TraceEvent} (hu : Takes moves part u) (hmid : ∀ y ∈ mid, ¬ At (Renews part) y)
    (hplace : ¬ Taken moves place (before ++ .pass u :: mid)) :
    place.path <+: u.path ∧ place.path ≠ u.path := by
  obtain ⟨hid, hk, hn, hcov⟩ := hu
  obtain ⟨hbinding, hpath⟩ := contains_iff_path.1 hc
  rw [Place.coveredBy, List.isPrefixOf_iff_prefix] at hcov
  -- a move of the place itself would still be in force, for what renews the place renews its parts
  have hnot : ¬ u.path <+: place.path := by
    intro hcovers
    refine hplace ⟨before, .pass u, mid, rfl, ⟨hid, hk, hbinding ▸ hn, ?_⟩, ?_⟩
    · rw [Place.coveredBy, List.isPrefixOf_iff_prefix]
      exact hcovers
    · intro y hy
      cases y with
      | enter => exact id
      | pass w => exact fun hw => hmid _ hy (renews_of_contains hc hw)
  refine ⟨(List.prefix_or_prefix_of_prefix hpath hcov).resolve_right hnot, fun heq => hnot ?_⟩
  rw [heq]

theorem valid_of_disposeOld {needs : Bool} {state : MoveState} (h : disposeOld needs state = .always) :
    state = .valid := by
  cases needs <;> cases state <;> first | rfl | cases h

/-- A run comes to the site with a part of the place moved out, and nothing has brought the part back. -/
def PartTaken (f : Function) (moves : List SiteId) (place : Place) (s : Site) : Prop :=
  ∃ part, Contains place part ∧ ∃ es c before after, f.Walk f.entry es c ∧
    f.trace f.entry es = before ++ .pass s :: after ∧ Taken moves part before

/-- The site moves explicitly from a field path below the place, and the states of that path show it moved
before `s`. -/
structure SplitBy (f : Function) (moves : List SiteId) (place : Place) (s u : Site) : Prop where
  site : u ∈ f.allSites
  moved : u.id ∈ moves
  explicit : u.explicit = true
  binding : u.binding = some place.binding
  below : place.path <+: u.path ∧ place.path ≠ u.path
  states : ∃ r, f.placeStates moves { binding := place.binding, path := u.path } = .ok r ∧
    r.mayBeMovedBefore s.id = true

theorem Planned.valid_before (hp : f.Planned m settings plan) (hs : s ∈ f.allSites) {a : AssignPlan}
    (ha : plan.assigns.get? s.id = some a) (halways : a.dispose = .always) :
    ∃ b, f.binding? a.place.binding = some b ∧ b.inRegion s.block = true ∧
      ∀ es c before after, f.Walk f.entry es c → f.trace f.entry es = before ++ .pass s :: after →
        f.conditionOn plan.moves a.place b before = .valid := by
  obtain ⟨_, hn, _, b, r, needs, hb, hr, hstate, hdispose, _⟩ := hp.assign hs ha
  have hvalid : r.stateBefore s.id = .valid := by
    rw [← hstate]
    exact valid_of_disposeOld (hdispose.symm.trans halways)
  have hin : b.inRegion s.block = true :=
    inRegion_of_stateBefore hp.wf hb hr hs (by rw [hvalid]; decide)
  refine ⟨b, hb, hin, fun es c before after hw ht => ?_⟩
  exact StateSet.eq_valid_of_summary hvalid
    ((has_setBefore hp.wf hb hr hs hn hin).2 ⟨es, c, before, after, hw, ht, rfl⟩)

theorem Planned.explicit_of_followed (hp : f.Planned m settings plan) {u : Site} {name : String}
    (hn : u.binding = some name) (hb : f.binding? name = some b) (hmoves : u.id ∈ plan.moves)
    {es : List Edge} {c : BlockId} {before mid after : List TraceEvent} (hw : f.Walk f.entry es c)
    (ht : f.trace f.entry es = before ++ .pass u :: (mid ++ .pass s :: after))
    (hs : s.binding = some name) (ha : s.isAccess = true)
    (hdecl : ∀ w, .pass w ∈ mid → declares name w = false)
    (hin : ∀ x, .enter x ∈ mid → b.inRegion x = true) : u.explicit = true := by
  have hall : u ∈ f.allSites := mem_allSites_of_pass (by rw [ht]; simp)
  obtain ⟨hk, _, ⟨facts, hfacts, hcandidate⟩ | hexplicit⟩ := hp.of_mem_moves hall hn hb hmoves
  · have hua : u.isAccess = true := by rw [Site.isAccess, hk]; rfl
    exact absurd (usedAfter_of_trace hp.wf hw ht hs ha hdecl hin)
      (not_usedAfter_of_lastUse hp.wf hfacts hall hn hb hua (facts.isLastUse_of_isMoveCandidate hcandidate))
  · exact hexplicit

/-- Since a move that has emptied a part of a place with a value, the run has stayed in the region. -/
theorem inRegion_since_taken (wf : f.WellFormed) (hc : Contains place part) {es : List Edge} {c : BlockId}
    {past mid after : List TraceEvent} {u : Site} (hw : f.Walk f.entry es c)
    (ht : f.trace f.entry es = past ++ .pass u :: (mid ++ .pass s :: after))
    (hu : Takes moves part u) (hmid : ∀ y ∈ mid, ¬ At (Renews part) y)
    (h : f.Supplied place b (past ++ .pass u :: mid)) :
    b.inRegion u.block = true ∧ ∀ x, .enter x ∈ mid → b.inRegion x = true := by
  have hnone : ∀ y ∈ TraceEvent.pass u :: mid, ¬ At (Supplies place b) y := by
    rw [List.forall_mem_cons]
    refine ⟨fun hsupplies => ?_, fun y hy hsupplies => ?_⟩
    · exact not_renews_of_takes hu (renews_of_contains hc hsupplies.1)
    · cases y with
      | enter => exact hsupplies
      | pass w => exact hmid _ hy (renews_of_contains hc hsupplies.1)
  obtain ⟨hpast, hinside⟩ := supplied_of_append hnone h
  constructor
  · by_contra hout
    exact not_supplied_before wf hw ht (by simpa using hout) hpast
  · intro x hx
    simpa [Outside] using hinside _ (List.mem_cons_of_mem _ hx)

theorem Planned.splitBy_of_taken (hp : f.Planned m settings plan) (hs : s ∈ f.allSites)
    (hn : s.binding = some place.binding) (ha : s.isAccess = true)
    (hb : f.binding? place.binding = some b) (hsin : b.inRegion s.block = true) {es : List Edge}
    {c : BlockId} {before after : List TraceEvent} (hw : f.Walk f.entry es c)
    (ht : f.trace f.entry es = before ++ .pass s :: after) (hholds : f.Holds plan.moves place b before)
    (hc : Contains place part) (htaken : Taken plan.moves part before) :
    ∃ u, f.SplitBy plan.moves place s u := by
  obtain ⟨past, x, mid, rfl, hx, hmid⟩ := htaken
  cases x with
  | enter => exact hx.elim
  | pass u =>
  have hu : Takes plan.moves part u := hx
  have hsplit : f.trace f.entry es = past ++ .pass u :: (mid ++ .pass s :: after) := by
    rw [ht, List.append_assoc, List.cons_append]
  obtain ⟨huin, hin⟩ := inRegion_since_taken hp.wf hc hw hsplit hu hmid hholds.1
  have hbelow := below_of_takes hc hu hmid hholds.2
  obtain ⟨hmoves, hk, hun, hcov⟩ := hu
  rw [← hc.1] at hun
  -- the field path that is moved, as a place of its own
  obtain ⟨moved, hmoved⟩ : ∃ q : Place, q = { binding := place.binding, path := u.path } := ⟨_, rfl⟩
  have hb' : f.binding? moved.binding = some b := hmoved ▸ hb
  have hrenew : ∀ w, .pass w ∈ mid → ¬ Renews moved w := by
    have hcontains : Contains moved part := by
      rw [hmoved]
      exact ⟨hc.1, hcov⟩
    exact fun w hw' hrenews => hmid _ hw' (renews_of_contains hcontains hrenews)
  have hdecl : ∀ w, .pass w ∈ mid → declares place.binding w = false := by
    intro w hw'
    rw [← Bool.not_eq_true, declares_iff]
    exact fun h => hrenew w hw' ⟨hmoved ▸ h.1, .inl h.2⟩
  have htakes : Takes plan.moves moved u := by
    refine ⟨hmoves, hk, hmoved ▸ hun, ?_⟩
    rw [hmoved, Place.coveredBy, List.isPrefixOf_iff_prefix]
  obtain ⟨r, hr⟩ : ∃ r, f.placeStatesIn f.graph plan.moves moved = .ok r := exists_placeStatesIn hb'
  have hstates : r.mayBeMovedBefore s.id = true :=
    (has_setBefore hp.wf hb' hr hs (hmoved ▸ hn) hsin).2
      ⟨es, c, _, after, hw, ht, conditionOn_of_takes htakes huin hin hrenew⟩
  exact ⟨u, mem_allSites_of_pass (by rw [ht]; simp), hmoves,
    hp.explicit_of_followed hun hb hmoves hw hsplit hn ha hdecl hin, hun, hbelow,
    r, hmoved ▸ hr, hstates⟩

/-- Where the states of a field path below the destination show it moved, some run has moved it. -/
theorem Planned.partTaken_of_splitBy (hp : f.Planned m settings plan) (hs : s ∈ f.allSites)
    (hn : s.binding = some place.binding) (hb : f.binding? place.binding = some b)
    (hsin : b.inRegion s.block = true)
    (hsupplied : ∀ es c before after, f.Walk f.entry es c →
      f.trace f.entry es = before ++ .pass s :: after → f.Supplied place b before) {u : Site}
    (h : f.SplitBy plan.moves place s u) : f.PartTaken plan.moves place s := by
  obtain ⟨r, hr, hmoved⟩ := h.states
  have hhas : (r.setBefore s.id).has .moved = true := hmoved
  obtain ⟨es, c, before, after, hw, ht, hcondition⟩ := (has_setBefore hp.wf (by exact hb) hr hs hn hsin).1 hhas
  have hc : Contains place { binding := place.binding, path := u.path } :=
    contains_iff_path.2 ⟨rfl, h.below.1⟩
  refine ⟨_, hc, es, c, before, after, hw, ht, ?_⟩
  have htracks : f.Tracks plan.moves { binding := place.binding, path := u.path } b before :=
    tracks_before hp.wf hw ht
  rcases htracks.supplied (supplied_of_contains hc (hsupplied es c before after hw ht)) with
    ⟨hvalid, _⟩ | ⟨_, htaken⟩
  · rw [hcondition] at hvalid
    cases hvalid
  · exact htaken

/-- Before a write that always destroys the old value, the destination itself has not been moved out on
any run. A part of it is gone on some run just if an explicit move of a field path below it may come
before. -/
theorem overwritten_whole_iff (hplan : planFunction m settings f = .ok plan)
    (hx : plan.excluded = false) (hs : s ∈ f.allSites) {a : AssignPlan}
    (ha : plan.assigns.get? s.id = some a) (halways : a.dispose = .always) :
    (∀ es c before after, f.Walk f.entry es c → f.trace f.entry es = before ++ .pass s :: after →
      ¬ Taken plan.moves a.place before) ∧
    (f.PartTaken plan.moves a.place s ↔ ∃ u, f.SplitBy plan.moves a.place s u) := by
  have hp := planned_of_planFunction hplan hx
  obtain ⟨hk, hn, _⟩ := hp.assign hs ha
  have haccess : s.isAccess = true := by rw [Site.isAccess, hk]; rfl
  obtain ⟨b, hb, hsin, hvalid⟩ := hp.valid_before hs ha halways
  have hholds : ∀ es c before after, f.Walk f.entry es c →
      f.trace f.entry es = before ++ .pass s :: after → f.Holds plan.moves a.place b before :=
    fun es c before after hw ht => (tracks_before hp.wf hw ht).valid_iff.1 (hvalid es c before after hw ht)
  refine ⟨fun es c before after hw ht => (hholds es c before after hw ht).2, ?_, ?_⟩
  · rintro ⟨part, hc, es, c, before, after, hw, ht, htaken⟩
    exact hp.splitBy_of_taken hs hn haccess hb hsin hw ht (hholds es c before after hw ht) hc htaken
  · rintro ⟨u, hu⟩
    exact hp.partTaken_of_splitBy hs hn hb hsin
      (fun es c before after hw ht => (hholds es c before after hw ht).1) hu

def rewritten : Function :=
  (Script.run .standard "f" .empty [
    .declare "p" (.named "Pair"),
    .moveOut (.place "p.name") (some (.argument "g" 0 .value false false)) true false,
    .access .write "p"]).function

def rewrittenPlan : FunctionPlan :=
  (planFunction (TypeModel.build .standard) {} rewritten).toOption.getD default

theorem planFunction_rewritten :
    planFunction (TypeModel.build .standard) {} rewritten = .ok rewrittenPlan :=
  eq_ok_of_isOk (by decide +kernel)

def writeOfP : Site := { Build.unplaced .write (some "p") with id := 2, index := 2 }

def assignOfP : AssignPlan :=
  { place := { binding := "p" }, order := .destroyThenConstruct, destState := .valid, dispose := .always
    sourceSite := none }

theorem overwritten_rewritten :
    (∀ es c before after, rewritten.Walk rewritten.entry es c →
      rewritten.trace rewritten.entry es = before ++ .pass writeOfP :: after →
      ¬ Taken rewrittenPlan.moves { binding := "p" } before) ∧
    (rewritten.PartTaken rewrittenPlan.moves { binding := "p" } writeOfP ↔
      ∃ u, rewritten.SplitBy rewrittenPlan.moves { binding := "p" } writeOfP u) := by
  have hs : writeOfP ∈ rewritten.allSites := by decide +kernel
  have ha : rewrittenPlan.assigns.get? writeOfP.id = some assignOfP := by decide +kernel
  exact overwritten_whole_iff planFunction_rewritten (by decide +kernel) hs ha rfl

/-- The one part of the old value that owes destruction is gone on every run, and the plan still destroys
the whole. -/
theorem overwritten_halfGone :
    Produced rewritten ∧ rewritten.validate (some (TypeModel.build .standard)) = .ok [] ∧
      planFunction (TypeModel.build .standard) {} rewritten = .ok rewrittenPlan ∧
      rewrittenPlan.excluded = false ∧ rewrittenPlan.assigns.get? writeOfP.id = some assignOfP ∧
      assignOfP.dispose = .always ∧
      ∃ before after, rewritten.trace rewritten.entry [] = before ++ .pass writeOfP :: after ∧
        Taken rewrittenPlan.moves { binding := "p", path := ["name"] } before := by
  refine ⟨.script .., ?_, planFunction_rewritten, ?_, ?_, rfl, ?_⟩
  · decide +kernel
  · decide +kernel
  · decide +kernel
  · refine ⟨(rewritten.trace rewritten.entry []).take 3, (rewritten.trace rewritten.entry []).drop 4, ?_, ?_⟩
    · decide +kernel
    · have htaken : Since (At (Takes rewrittenPlan.moves { binding := "p", path := ["name"] }))
          (At (Renews { binding := "p", path := ["name"] }))
          ((rewritten.trace rewritten.entry []).take 3) := by decide +kernel
      exact htaken

end Function
end MovePlan
